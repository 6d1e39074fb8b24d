import Overapprox.Heap.Summary
import Overapprox.Proofs.Expr.Mentions
import Overapprox.Proofs.Order.Set

/-!
# Rewriting over summary heaps

A summary heap resolves every expression, to nothing at all where a heap expression has no meaning.
What it resolves an expression to reads the identifiers of the expression, and otherwise only
summaries and pointers to them.

* `Summary.exists_rewrite`: rewriting never fails.
* `Summary.rewritesTo_of_mem`: how a result of a rewriting comes about.
* `Summary.mentions_of_rewrite`: what the results of a rewriting read.
-/

namespace Overapprox

namespace Powerset

variable {α : Type} [Ord α] [Std.TransOrd α] {as : List α} {a : α}

theorem mem_of_mem_ofList (h : a ∈ (ofList as).toList) : a ∈ as :=
  OrdSet.mem_of_mem_ofList h

/-- Of equal elements of a list one is in its set. -/
theorem exists_mem_ofList_of_mem [BEq α] [Std.LawfulBEqOrd α] (h : a ∈ as) :
    ∃ b ∈ (ofList as).toList, (a == b) = true := by
  have hkept : (OrdSet.ofList as).contains a = true := by
    rw [OrdSet.contains_ofList, List.any_eq_true]
    exact ⟨a, h, beq_iff_eq.2 Std.ReflCmp.compare_self⟩
  obtain ⟨b, hb, heq⟩ := OrdSet.contains_iff.1 hkept
  exact ⟨b, hb, Std.LawfulBEqOrd.compare_eq_iff_beq.1 heq⟩

end Powerset

namespace Summary

/-- Every kind of expression is rewritten when its operands are. -/
theorem exists_rewrite (e : SymExpr) : ∃ choices, rewriter.rewrite e = .ok choices := by
  induction e with
  | const | ident | any | skip | alloc => exact ⟨_, rfl⟩
  | unary _ _ _ ih | ref _ _ ih | deref _ _ ih =>
    obtain ⟨es, he⟩ := ih
    rw [Rewriter.rewrite, he]
    exact ⟨_, rfl⟩
  | binary _ _ _ _ ihl ihr | child _ _ _ ihl ihr =>
    obtain ⟨ls, hl⟩ := ihl
    obtain ⟨rs, hr⟩ := ihr
    rw [Rewriter.rewrite, hl, hr]
    exact ⟨_, rfl⟩
  | ternary _ _ _ _ _ ihl ihm ihr =>
    obtain ⟨ls, hl⟩ := ihl
    obtain ⟨ms, hm⟩ := ihm
    obtain ⟨rs, hr⟩ := ihr
    rw [Rewriter.rewrite, hl, hm, hr]
    exact ⟨_, rfl⟩

/-! ## Single rewritings -/

/-- What an expression may be rewritten to, given what its operands may be rewritten to. -/
inductive RewritesTo : SymExpr → ValueExpr → Prop where
  | const (k : Constant) (a : Annotation) : RewritesTo (.const k a) (.const k a)
  | ident (id : Identifier) (a : Annotation) : RewritesTo (.ident id a) (.ident id a)
  | any (a : Annotation) : RewritesTo (.any a) (.any a)
  | skip (a : Annotation) : RewritesTo (.skip a) (.skip a)
  | unary {e : SymExpr} {c : ValueExpr} (op : UnaryOp) (a : Annotation) :
    RewritesTo e c → RewritesTo (.unary op e a) (.unary op c a)
  | binary {l r : SymExpr} {c d : ValueExpr} (op : BinaryOp) (a : Annotation) :
    RewritesTo l c → RewritesTo r d → RewritesTo (.binary op l r a) (.binary op c d a)
  | ternary {l m r : SymExpr} {c d d' : ValueExpr} (op : TernaryOp) (a : Annotation) :
    RewritesTo l c → RewritesTo m d → RewritesTo r d' →
      RewritesTo (.ternary op l m r a) (.ternary op c d d' a)
  | child {k : SymExpr} {container c : ValueExpr} (e : SymExpr) (a : Annotation) :
    RewritesTo k container → c ∈ children a.location container → RewritesTo (.child k e a) c
  | alloc {a : Annotation} {t : Ty} : t ∈ a.runtimeTypes.toList → t.isInMemory = true →
    RewritesTo (.alloc a) (location (.singleton t) a.location)
  | ref {e : SymExpr} {c : ValueExpr} {id : Identifier} (a : Annotation) :
    RewritesTo e c → c.identifier? = some id → id.isHeap = true →
      RewritesTo (.ref e a) (pointerTo id (.ref e a))
  | deref {e : SymExpr} {operand c : ValueExpr} (a : Annotation) :
    RewritesTo e operand → c ∈ dereferenced a.location operand → RewritesTo (.deref e a) c

/-- By induction on the expression; combinations of operands are taken apart again. -/
theorem rewritesTo_of_mem {e : SymExpr} {choices : Choices}
    (h : rewriter.rewrite e = .ok choices) {c : ValueExpr} (hc : c ∈ choices.toList) :
    RewritesTo e c := by
  induction e generalizing choices c with
  | const | ident | any | skip =>
    cases h
    obtain rfl := List.mem_singleton.1 hc
    constructor
  | unary op e a ih =>
    obtain ⟨es, hes⟩ := exists_rewrite e
    rw [Rewriter.rewrite, hes] at h
    cases h
    obtain ⟨d, hd, rfl⟩ := List.mem_map.1 (Powerset.mem_of_mem_ofList hc)
    exact .unary op a (ih hes hd)
  | binary op l r a ihl ihr =>
    obtain ⟨ls, hls⟩ := exists_rewrite l
    obtain ⟨rs, hrs⟩ := exists_rewrite r
    rw [Rewriter.rewrite, hls, hrs] at h
    cases h
    obtain ⟨d, hd, hc⟩ := List.mem_flatMap.1 (Powerset.mem_of_mem_ofList hc)
    obtain ⟨d', hd', rfl⟩ := List.mem_map.1 hc
    exact .binary op a (ihl hls hd) (ihr hrs hd')
  | ternary op l m r a ihl ihm ihr =>
    obtain ⟨ls, hls⟩ := exists_rewrite l
    obtain ⟨ms, hms⟩ := exists_rewrite m
    obtain ⟨rs, hrs⟩ := exists_rewrite r
    rw [Rewriter.rewrite, hls, hms, hrs] at h
    cases h
    obtain ⟨d, hd, hc⟩ := List.mem_flatMap.1 (Powerset.mem_of_mem_ofList hc)
    obtain ⟨d', hd', hc⟩ := List.mem_flatMap.1 hc
    obtain ⟨d'', hd'', rfl⟩ := List.mem_map.1 hc
    exact .ternary op a (ihl hls hd) (ihm hms hd') (ihr hrs hd'')
  | child k e a ihk =>
    obtain ⟨ks, hks⟩ := exists_rewrite k
    obtain ⟨es, hes⟩ := exists_rewrite e
    rw [Rewriter.rewrite, hks, hes] at h
    cases h
    obtain ⟨d, hd, hc⟩ := List.mem_flatMap.1 (Powerset.mem_of_mem_ofList hc)
    exact .child e a (ihk hks hd) hc
  | alloc a =>
    cases h
    -- The types that are not allocated are filtered out before they are named.
    obtain ⟨t, ht, rfl⟩ := List.mem_map.1 (Powerset.mem_of_mem_ofList hc)
    obtain ⟨ht, hmemory⟩ := List.mem_filter.1 ht
    exact .alloc ht hmemory
  | ref e a ih =>
    obtain ⟨es, hes⟩ := exists_rewrite e
    rw [Rewriter.rewrite, hes] at h
    cases h
    obtain ⟨id, hid, rfl⟩ := List.mem_map.1 (Powerset.mem_of_mem_ofList hc)
    obtain ⟨hid, hheap⟩ := List.mem_filter.1 hid
    obtain ⟨d, hd, hid⟩ := List.mem_filterMap.1 hid
    exact .ref a (ih hes hd) hid hheap
  | deref e a ih =>
    obtain ⟨es, hes⟩ := exists_rewrite e
    rw [Rewriter.rewrite, hes] at h
    cases h
    obtain ⟨d, hd, hc⟩ := List.mem_flatMap.1 (Powerset.mem_of_mem_ofList hc)
    exact .deref a (ih hes hd) hc

/-! ## What the results read -/

variable {x : Identifier} {c : ValueExpr} {loc : Location}

/-- A summary is the weak location of the name of the common supertype. -/
theorem exists_location (inner : TypeSet) (loc : Location) :
    ∃ a note, location inner loc = .ident (.heap true inner.supertype.text a) note ∧
      note.type = inner.supertype := by
  unfold location
  split
  · exact ⟨_, _, rfl, rfl⟩
  · exact ⟨_, _, rfl, rfl⟩

theorem mentions_location (hx : x.isSummary = false) (inner : TypeSet) (loc : Location) :
    (location inner loc).mentions x = false := by
  obtain ⟨a, note, hlocation, -⟩ := exists_location inner loc
  rw [hlocation, ValueExpr.mentions, Bool.eq_false_iff]
  intro h
  rw [← Identifier.isSummary_eq_of_beq h] at hx
  cases hx

/-- A pointer mentions no identifier that is not a pointer, its target included. -/
theorem mentions_pointer (hx : x.isPointer = false) (target : Identifier) (a : Annotation) :
    (ValueExpr.ofIdentifier (.pointer target a)).mentions x = false := by
  rw [ValueExpr.ofIdentifier, ValueExpr.mentions, Bool.eq_false_iff]
  intro h
  rw [← Identifier.isPointer_eq_of_beq h] at hx
  cases hx

theorem mentions_of_mem_children (hx : x.isSummary = false) {container : ValueExpr}
    (hcontainer : container.mentions x = false) (h : c ∈ children loc container) :
    c.mentions x = false := by
  unfold children at h
  split at h
  · obtain ⟨⟨t, d⟩, hd, rfl⟩ := List.mem_map.1 h
    obtain ⟨_, -, hd⟩ := List.mem_filterMap.1 hd
    obtain ⟨inner, -, heq⟩ := Option.map_eq_some_iff.1 hd
    cases heq
    exact mentions_location hx inner loc
  · cases List.mem_singleton.1 h
    exact hcontainer
  · cases h

theorem mentions_of_mem_dereferenced (hx : x.isPointer = false) {operand : ValueExpr}
    (hoperand : operand.mentions x = false) (h : c ∈ dereferenced loc operand) :
    c.mentions x = false := by
  unfold dereferenced at h
  split at h
  · cases List.mem_singleton.1 h
    exact hoperand
  · cases h
  · obtain ⟨p, -, hp⟩ := List.mem_filterMap.1 h
    obtain ⟨id, -, rfl⟩ := Option.map_eq_some_iff.1 hp
    rw [ValueExpr.mentions_withRuntimeTypes]
    exact mentions_pointer hx _ _
  · cases h

/-- By induction on the rewriting; the heap only adds summaries and pointers to them. -/
theorem RewritesTo.mentions_eq_false (hsummary : x.isSummary = false)
    (hpointer : x.isPointer = false) {e : SymExpr} (h : RewritesTo e c)
    (he : e.mentions x = false) : c.mentions x = false := by
  induction h with
  | const | any | skip => rfl
  | ident => exact he
  | unary _ _ _ ih => exact ih he
  | binary _ _ _ _ ihl ihr =>
    obtain ⟨hl, hr⟩ := Bool.or_eq_false_iff.1 he
    exact Bool.or_eq_false_iff.2 ⟨ihl hl, ihr hr⟩
  | ternary _ _ _ _ _ ihl ihm ihr =>
    obtain ⟨hlm, hr⟩ := Bool.or_eq_false_iff.1 he
    obtain ⟨hl, hm⟩ := Bool.or_eq_false_iff.1 hlm
    exact Bool.or_eq_false_iff.2 ⟨Bool.or_eq_false_iff.2 ⟨ihl hl, ihm hm⟩, ihr hr⟩
  | child _ _ _ hc ih =>
    exact mentions_of_mem_children hsummary (ih (Bool.or_eq_false_iff.1 he).1) hc
  | alloc => exact mentions_location hsummary _ _
  | ref =>
    rw [pointerTo, ValueExpr.mentions_withRuntimeTypes]
    exact mentions_pointer hpointer _ _
  | deref _ _ hc ih => exact mentions_of_mem_dereferenced hpointer (ih he) hc

/-- Resolving an expression brings in no identifiers except summaries and pointers. -/
theorem mentions_of_rewrite (hsummary : x.isSummary = false) (hpointer : x.isPointer = false)
    {e : SymExpr} {choices : Choices} (he : e.mentions x = false)
    (h : rewriter.rewrite e = .ok choices) : ∀ c ∈ choices.toList, c.mentions x = false :=
  fun _ hc => (rewritesTo_of_mem h hc).mentions_eq_false hsummary hpointer he

end Summary

end Overapprox
