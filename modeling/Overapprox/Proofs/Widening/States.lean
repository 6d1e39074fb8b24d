import Overapprox.Proofs.Lattice.States
import Overapprox.Proofs.Widening.Domains

/-!
# The widenings of analysis states settle

Intervals and identifiers are unlimited, since bounds and keys can only be given up. The other parts
of a state are sets that only grow, so the states that are brought in have to draw what they list
from a finite vocabulary.

* `State.DrawnFrom`: the names, types, symbols and expressions of a state are in a vocabulary.
* `State.settles`: states settle when they are widened by states of one vocabulary.
* `State.widening_ends_loops`: widenings are upper bounds, and a loop that widens its head ends in a
  post-fixpoint.
-/

namespace Overapprox

open AbstractLattice
open scoped LawfulLattice

/-! ## Environments -/

namespace ValueEnv

variable {δ : Type}

theorem function_injective : Function.Injective (ValueEnv.function (δ := δ)) := by
  rintro ⟨f⟩ ⟨g⟩ rfl
  rfl

variable [BEq δ] [AbstractLattice δ] [LawfulLattice δ] [LawfulWidening δ]

instance : LawfulWidening (ValueEnv δ) := .of_proper fun {a b} _ _ => by
  rw [le_iff, le_iff]
  exact LawfulWidening.le_widen a.function b.function

/-- Environments settle when values do. -/
theorem settles {p : δ → Prop} (hp : Settles p) :
    Settles fun env : ValueEnv δ => ∀ e ∈ env.function.entries, p e.2 :=
  .of_view function_injective (Pointwise.settles hp) fun _ _ hb => widen_eq_or_grows hb

end ValueEnv

namespace TypeEnv

/-- The types that are listed, for identifiers and for the last expression, are in a set. -/
structure DrawnFrom (u : TypeSet) (t : TypeEnv) : Prop where
  bindings : ∀ e ∈ t.env.function.entries, e.2.runtimeTypes.subset u = true
  stack : t.stack.runtimeTypes.subset u = true

/-- A join lists no types that neither operand lists. -/
theorem DrawnFrom.join {u : TypeSet} {a b : TypeEnv} (ha : a.DrawnFrom u) (hb : b.DrawnFrom u) :
    (join a b).DrawnFrom u := by
  refine join_keeps (p := DrawnFrom u) (fun {a b} _ _ ha hb => ?_) ha hb
  have hbindings := ValueEnv.forall_entries_join
    (p := fun v : InferredTypes => v.runtimeTypes.subset u = true) ha.bindings hb.bindings
    InferredTypes.growsByUnion.elements_join_subset
  exact ⟨hbindings, InferredTypes.growsByUnion.elements_join_subset ha.stack hb.stack⟩

instance : LawfulWidening TypeEnv := .of_proper fun {a b} _ _ => by
  rw [orderedBy.le_iff, orderedBy.le_iff]
  have henv := LawfulWidening.le_widen a.env b.env
  have hstack := LawfulWidening.le_widen a.stack b.stack
  exact ⟨fun _ => ⟨henv.1, hstack.1⟩, fun _ => ⟨henv.2, hstack.2⟩⟩

/-- The components of a type environment. -/
def components (t : TypeEnv) : ValueEnv InferredTypes × InferredTypes := (t.env, t.stack)

theorem components_injective : Function.Injective components := by
  rintro ⟨env, stack⟩ ⟨env', stack'⟩ h
  cases h
  rfl

/-- Type environments settle when the types are drawn from a finite set. -/
theorem settles (u : TypeSet) : Settles (DrawnFrom u) := by
  have htypes := InferredTypes.growsByUnion.settles u
  exact .of_view components_injective ((ValueEnv.settles htypes).prod_lex htypes) fun _ _ hb =>
    pair_eq_or_lex hb.bindings (widen_eq_or_grows hb.stack)

end TypeEnv

/-! ## Composite states -/

namespace Composite

variable {η : Type} [BEq η] [AbstractLattice η] [LawfulLattice η] [LawfulWidening η]

instance : LawfulWidening (Composite η) := .of_proper fun {a b} _ _ => by
  rw [orderedBy.le_iff, orderedBy.le_iff]
  have hheap := LawfulWidening.le_widen a.heap b.heap
  have hvalues := LawfulWidening.le_widen a.values b.values
  have htypes := LawfulWidening.le_widen a.types b.types
  exact ⟨⟨⟨hheap.1, hvalues.1⟩, htypes.1⟩, ⟨hheap.2, hvalues.2⟩, htypes.2⟩

/-- The components of a composite state. -/
def components (s : Composite η) : η × ValueEnv Interval × TypeEnv := (s.heap, s.values, s.types)

omit [BEq η] [AbstractLattice η] [LawfulLattice η] [LawfulWidening η] in
theorem components_injective : Function.Injective (components (η := η)) := by
  rintro ⟨heap, values, types⟩ ⟨heap', values', types'⟩ h
  cases h
  rfl

/-- The values are unlimited, whatever heaps are brought in. -/
theorem settles {p : η → Prop} (hp : Settles p) (u : TypeSet) :
    Settles fun s : Composite η => p s.heap ∧ s.types.DrawnFrom u := by
  have hvalues := ValueEnv.settles Interval.settles
  refine .of_view components_injective (hp.prod_lex (hvalues.prod_lex (TypeEnv.settles u)))
    fun _ _ hb => ?_
  exact pair_eq_or_lex hb.1 (pair_eq_or_lex (fun _ _ => trivial) (widen_eq_or_grows hb.2))

end Composite

/-! ## Analysis states -/

namespace SymbolAliasing

theorem function_injective : Function.Injective SymbolAliasing.function := by
  rintro ⟨f⟩ ⟨g⟩ rfl
  rfl

instance : LawfulWidening SymbolAliasing := .of_join fun _ _ => rfl

theorem settles (u : OrdSet Symbol) :
    Settles fun a : SymbolAliasing => ∀ e ∈ a.function.entries, e.2.elements.subset u = true :=
  .of_view function_injective (Pointwise.settles (Powerset.growsByUnion.settles u)) fun _ _ hb =>
    widen_eq_or_grows hb

end SymbolAliasing

/-- The names, types, symbols and expressions that some states may list. -/
structure Vocabulary where
  names : OrdSet String
  types : TypeSet
  symbols : OrdSet Symbol
  expressions : OrdSet SymExpr

namespace State

/-- What the state lists is in the vocabulary. Intervals, identifiers and the symbols that have
aliases are unlimited. -/
structure DrawnFrom (v : Vocabulary) (s : State SummaryHeap) : Prop where
  names : s.composite.heap.names.subset v.names = true
  types : s.composite.types.DrawnFrom v.types
  aliases : ∀ e ∈ s.aliasing.function.entries, e.2.elements.subset v.symbols = true
  stack : s.stack.elements.subset v.expressions = true

variable {η : Type} [BEq η] [AbstractLattice η] [LawfulLattice η] [LawfulWidening η]

instance : LawfulWidening (State η) := .of_proper fun {a b} _ _ => by
  rw [orderedBy.le_iff, orderedBy.le_iff]
  have hcomposite := LawfulWidening.le_widen a.composite b.composite
  have hstack := LawfulWidening.le_widen a.stack b.stack
  have haliasing := LawfulWidening.le_widen a.aliasing b.aliasing
  exact ⟨fun _ _ => ⟨⟨hcomposite.1, hstack.1⟩, haliasing.1⟩,
    fun _ _ => ⟨⟨hcomposite.2, hstack.2⟩, haliasing.2⟩⟩

/-- The components of an analysis state. -/
def components (s : State η) : Composite η × SymbolAliasing × ExprSet :=
  (s.composite, s.aliasing, s.stack)

omit [BEq η] [AbstractLattice η] [LawfulLattice η] [LawfulWidening η] in
theorem components_injective : Function.Injective (components (η := η)) := by
  rintro ⟨composite, aliasing, stack⟩ ⟨composite', aliasing', stack'⟩ h
  cases h
  rfl

/-- The parts of a state are widened or joined at once, and each of them settles. -/
theorem settles (v : Vocabulary) : Settles (DrawnFrom v) := by
  have hcomposite := Composite.settles (SummaryHeap.growsByUnion.settles v.names) v.types
  have haliasing := SymbolAliasing.settles v.symbols
  have hstack := Powerset.growsByUnion.settles v.expressions
  refine .of_view components_injective (hcomposite.prod_lex (haliasing.prod_lex hstack))
    fun _ _ hb => ?_
  exact pair_eq_or_lex ⟨hb.names, hb.types⟩ (pair_eq_or_lex hb.aliases (widen_eq_or_grows hb.stack))

end State

/-! ## Vocabularies -/

namespace State

variable {v : Vocabulary} {s t : State SummaryHeap}

/-- A join draws what it lists from the vocabulary of its operands. -/
theorem DrawnFrom.join (hs : s.DrawnFrom v) (ht : t.DrawnFrom v) : (join s t).DrawnFrom v := by
  refine join_keeps (p := DrawnFrom v) (fun {s t} _ _ hs ht => ?_) hs ht
  have hcomposite := join_keeps
    (p := fun c : Composite SummaryHeap =>
      c.heap.names.subset v.names = true ∧ c.types.DrawnFrom v.types)
    (fun _ _ hc hd => ⟨SummaryHeap.growsByUnion.elements_join_subset hc.1 hd.1, hc.2.join hd.2⟩)
    ⟨hs.names, hs.types⟩ ⟨ht.names, ht.types⟩
  have haliases := join_keeps
    (p := fun a : SymbolAliasing => ∀ e ∈ a.function.entries, e.2.elements.subset v.symbols = true)
    (fun {a b} _ _ ha hb => Pointwise.forall_entries_join
      (p := fun u : Powerset Symbol => u.elements.subset v.symbols = true) ha hb
      Powerset.growsByUnion.elements_join_subset) hs.aliases ht.aliases
  exact ⟨hcomposite.1, hcomposite.2, haliases,
    Powerset.growsByUnion.elements_join_subset hs.stack ht.stack⟩

end State

/-- Adds what a state lists to a vocabulary. -/
def Vocabulary.extend (v : Vocabulary) (s : State SummaryHeap) : Vocabulary where
  names := v.names.insertAll s.composite.heap.names.toList
  types := v.types.insertAll
    (s.composite.types.env.function.entries.flatMap (fun e => e.2.runtimeTypes.toList) ++
      s.composite.types.stack.runtimeTypes.toList)
  symbols := v.symbols.insertAll (s.aliasing.function.entries.flatMap fun e => e.2.toList)
  expressions := v.expressions.insertAll s.stack.toList

namespace State

variable {v : Vocabulary} {s t : State SummaryHeap}

/-- A vocabulary can be extended by what a state lists. -/
theorem drawnFrom_extend (v : Vocabulary) (s : State SummaryHeap) : s.DrawnFrom (v.extend s) where
  names := OrdSet.subset_insertAll_of_mem _ fun _ h => h
  types := {
    bindings := fun e he => OrdSet.subset_insertAll_of_mem _ fun _ h =>
      List.mem_append_left _ (List.mem_flatMap.2 ⟨e, he, h⟩)
    stack := OrdSet.subset_insertAll_of_mem _ fun _ h => List.mem_append_right _ h }
  aliases e he := OrdSet.subset_insertAll_of_mem _ fun _ h => List.mem_flatMap.2 ⟨e, he, h⟩
  stack := OrdSet.subset_insertAll_of_mem _ fun _ h => h

theorem DrawnFrom.extend (ht : t.DrawnFrom v) (s : State SummaryHeap) :
    t.DrawnFrom (v.extend s) where
  names := OrdSet.subset_trans ht.names (OrdSet.subset_insertAll _ _)
  types := {
    bindings := fun e he =>
      OrdSet.subset_trans (ht.types.bindings e he) (OrdSet.subset_insertAll _ _)
    stack := OrdSet.subset_trans ht.types.stack (OrdSet.subset_insertAll _ _) }
  aliases e he := OrdSet.subset_trans (ht.aliases e he) (OrdSet.subset_insertAll _ _)
  stack := OrdSet.subset_trans ht.stack (OrdSet.subset_insertAll _ _)

/-! ## Fixpoints -/

/-- Widenings of analysis states over summary heaps lie above their operands. A state that is
widened by states of one vocabulary is eventually constant, so a loop that widens its head by such
states stops, and its last head covers the entry and what the body makes of that head. -/
theorem widening_ends_loops :
    (∀ s t : State SummaryHeap, s ≤ widen s t ∧ t ≤ widen s t) ∧
    (∀ (v : Vocabulary) (x y : ℕ → State SummaryHeap), (∀ n, (y n).DrawnFrom v) →
      (∀ n, x (n + 1) = widen (x n) (y n)) → ∃ N, ∀ n, N ≤ n → x n = x N) ∧
    (∀ (v : Vocabulary) (entry start : State SummaryHeap)
        (body : State SummaryHeap → State SummaryHeap),
      (∀ n, (body (loopHeads entry body start n)).DrawnFrom v) →
      ∃ n, LoopStops entry body start n ∧
        join entry (body (loopHeads entry body start n)) ≤ loopHeads entry body start n) := by
  refine ⟨LawfulWidening.le_widen, fun v x y hy hx => (settles v).eventually_eq hy hx,
    fun v entry start body hbody => ?_⟩
  have hjoin (n : ℕ) :
      (join entry (body (loopHeads entry body start n))).DrawnFrom (v.extend entry) :=
    (drawnFrom_extend v entry).join ((hbody n).extend entry)
  obtain ⟨n, hn⟩ := (settles (v.extend entry)).exists_loopStops hjoin
  exact ⟨n, hn, hn.join_le⟩

/-- The variable of a counting loop. -/
def counted : Identifier := .var "n" { type := .int32 }

/-- The state in which the counted variable has some value. -/
def counter (v : Interval) : State SummaryHeap :=
  { composite := { heap := {}, values := ValueEnv.empty.put counted v, types := {} } }

/-- The state before a counting loop. -/
def zero : State SummaryHeap := counter (.singleton 0)

/-- The body of a counting loop. -/
def countUp (s : State SummaryHeap) : State SummaryHeap :=
  counter (Interval.binary {} .add (s.composite.values.get counted) (.singleton 1))

theorem drawnFrom_counter (v : Interval) :
    (counter v).DrawnFrom ⟨.empty, .empty, .empty, .empty⟩ where
  names := rfl
  types := ⟨nofun, rfl⟩
  aliases := nofun
  stack := rfl

/-- Infinitely many values come into the state of a counting loop, and the loop stops. -/
theorem widening_ends_loops_counter :
    (∃ N, ∀ n, N ≤ n → loopHeads zero countUp zero n = loopHeads zero countUp zero N) ∧
      ∃ n, LoopStops zero countUp zero n ∧
        join zero (countUp (loopHeads zero countUp zero n)) ≤ loopHeads zero countUp zero n := by
  obtain ⟨-, hsettles, hstops⟩ := widening_ends_loops
  constructor
  · exact hsettles _ _ (fun n => join zero (countUp (loopHeads zero countUp zero n)))
      (fun _ => (drawnFrom_counter _).join (drawnFrom_counter _)) fun _ => rfl
  · exact hstops _ zero zero countUp fun _ => drawnFrom_counter _

end State

end Overapprox
