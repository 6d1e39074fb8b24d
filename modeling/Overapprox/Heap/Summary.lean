import Overapprox.Heap.Basic
import Overapprox.Ty.Supertype

/-!
# The heap of type summaries

One weak location stands for all instances of a type, whatever their fields. A heap is the set of
the names of the types that were allocated so far, and only grows. An allocation is resolved to the
location of its type, and an access through a pointer to the locations of what it may point to.

* `SummaryHeap.allocate_names`: what a heap knows after an expression.
* `Summary.identifier?_location`: a summary is a weak location.
-/

namespace Overapprox

open AbstractLattice

/-- The names of the types that were allocated. -/
inductive SummaryHeap where
  | top
  | bottom
  | allocated (names : OrdSet String)
deriving DecidableEq

namespace SummaryHeap

/-- The names that are listed. -/
def names : SummaryHeap → OrdSet String
  | allocated s => s
  | _ => .empty

/-- The heap without allocations. -/
def empty : SummaryHeap := allocated .empty

instance : EmptyCollection SummaryHeap := ⟨empty⟩

instance : Inhabited SummaryHeap := ⟨empty⟩

instance : Render SummaryHeap where
  render
    | bottom => bottomMark
    | top => topMark
    | allocated s => render s
  report
    | bottom => .text bottomMark
    | top => .text topMark
    | allocated s => .texts s.toList

instance : AbstractLattice SummaryHeap where
  top := top
  bottom := bottom
  isTop h := h == top
  isBottom h := h == bottom
  properJoin g h := allocated (g.names.union h.names)
  properMeet g h := allocated (g.names.inter h.names)
  properLe g h := g.names.subset h.names

/-- The names of the types of which an expression allocates instances, from the left. -/
def allocatedBy : SymExpr → List String
  | .const .. => []
  | .ident .. => []
  | .any _ => []
  | .skip _ => []
  | .unary _ e _ => allocatedBy e
  | .binary _ l r _ => allocatedBy l ++ allocatedBy r
  | .ternary _ l m r _ => allocatedBy l ++ allocatedBy m ++ allocatedBy r
  | .child c e _ => allocatedBy c ++ allocatedBy e
  | .alloc a => (a.runtimeTypes.toList.filter Ty.isInMemory).map Ty.text
  | .ref e _ => allocatedBy e
  | .deref e _ => allocatedBy e

/-- Records the allocations of an expression. -/
def allocate (h : SummaryHeap) (e : SymExpr) : SummaryHeap :=
  match h with
  | allocated s => allocated (s.insertAll (allocatedBy e))
  | marked => marked

/-- An evaluation adds the types that its expression allocates, and forgets none. -/
theorem allocate_names (s : OrdSet String) (e : SymExpr) (n : String) :
    ((allocated s).allocate e).names.contains n
      = (s.contains n || (allocatedBy e).any fun m => compare n m == .eq) :=
  OrdSet.contains_insertAll n (allocatedBy e) s

end SummaryHeap

namespace Summary

/-- The location that stands for all instances of some types. -/
def location (inner : TypeSet) (loc : Location) : ValueExpr :=
  let t := inner.supertype
  let e := ValueExpr.ofIdentifier (.heap true t.text ⟨t, none, loc⟩)
  if inner.isEmpty then e else e.withRuntimeTypes inner

/-- The pointer to a location that an expression evaluates to. -/
def pointerTo (target : Identifier) (e : SymExpr) : ValueExpr :=
  let t := Ty.referenceTo target.runtimeTypes
  (ValueExpr.ofIdentifier (.pointer target ⟨t, none, e.note.location⟩)).withRuntimeTypes
    (e.note.runtimeTypes?.getD (.singleton t))

/-- The summaries of what an identifier may point to, with the type of the pointer to each. -/
def pointees (id : Identifier) (loc : Location) : List (Ty × ValueExpr) :=
  id.runtimeTypes.toList.filterMap fun t => t.inner?.map fun inner => (t, location inner loc)

/-- What the children of a container are. A summary stands for all of its fields. -/
def children (loc : Location) (container : ValueExpr) : List ValueExpr :=
  match container.identifier? with
  | some (.pointer t a) => (pointees (.pointer t a) loc).map (·.2)
  | some (.heap ..) => [container]
  | _ => []

/-- The pointer of a type to a summary. -/
def pointerOfType (loc : Location) (p : Ty × ValueExpr) : Option ValueExpr :=
  p.2.identifier?.map fun id =>
    (ValueExpr.ofIdentifier (.pointer id ⟨p.1, none, loc⟩)).withRuntimeTypes (.singleton p.1)

/-- What an operand points to. A pointer is followed by the access that comes after it. -/
def dereferenced (loc : Location) (operand : ValueExpr) : List ValueExpr :=
  match operand.identifier? with
  | some (.pointer ..) => [operand]
  | some (.heap ..) => []
  | some id => (pointees id loc).filterMap (pointerOfType loc)
  | none => []

/-- Resolves heap expressions to the summaries of their types. -/
def rewriter : Rewriter where
  child e containers _ :=
    return .ofList (containers.toList.flatMap (children e.note.location))
  alloc e :=
    return .ofList ((e.runtimeTypes.toList.filter Ty.isInMemory).map fun t =>
      location (.singleton t) e.note.location)
  ref e operands :=
    return .ofList (((operands.toList.filterMap ValueExpr.identifier?).filter
      Identifier.isHeap).map (pointerTo · e))
  deref e operands :=
    return .ofList (operands.toList.flatMap (dereferenced e.note.location))

/-- A location stands for the objects of a type together, so it is weak. -/
theorem identifier?_location (inner : TypeSet) (loc : Location) :
    ∃ id, (location inner loc).identifier? = some id ∧ id.isWeak = true := by
  unfold location
  split
  · exact ⟨_, rfl, rfl⟩
  · exact ⟨_, rfl, rfl⟩

end Summary

instance : HeapDomain SummaryHeap where
  assign h _ e := { heap := h.allocate e }
  step h e := { heap := h.allocate e }
  assume h _ := { heap := h }
  satisfies _ _ := .unknown
  forget h _ := h
  pushScope h _ := h
  popScope h _ := h
  rewrite _ e := Summary.rewriter.rewrite e

end Overapprox
