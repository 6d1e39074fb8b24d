import Overapprox.Location
import Overapprox.Ty.Basic

/-!
# Identifiers

An identifier names a variable, a heap location, a pointer to an identifier, or an identifier that
a call has hidden. It carries annotations, a static type, the runtime types inferred so far and a
location, which neither equality nor order look at: an identifier found with other annotations is
the same key.

* `Identifier.name_eq_of_beq`: equal identifiers have one name.
* `Identifier.popScope?_pushScope`: popping the token that was pushed gives the identifier back.
* `Identifier.pushScope_of_isHeap`: heap locations are global and stay as they are.
-/

namespace Overapprox

/-- What is known about an identifier or an expression besides what it denotes. -/
structure Annotation where
  /-- The static type. -/
  type : Ty
  /-- The runtime types, once some were inferred. -/
  runtimeTypes? : Option TypeSet := none
  /-- Where it comes from. -/
  location : Location := .synthetic
deriving DecidableEq

namespace Annotation

/-- The inferred runtime types; every instance of the static type where none were inferred. -/
def runtimeTypes (a : Annotation) : TypeSet := a.runtimeTypes?.getD a.type.instances

end Annotation

/-- An abstract memory location with a name. -/
inductive Identifier where
  /-- A variable of the current scope. -/
  | var (name : String) (note : Annotation)
  /-- A heap location. A weak one stands for several concrete locations. -/
  | heap (weak : Bool) (name : String) (note : Annotation)
  /-- A pointer to the target. -/
  | pointer (target : Identifier) (note : Annotation)
  /-- An identifier hidden by a call. -/
  | outOfScope (scope : ScopeToken) (inner : Identifier) (note : Annotation)
deriving DecidableEq

namespace Identifier

/-- The annotations. -/
def note : Identifier → Annotation
  | var _ a | heap _ _ a | pointer _ a | outOfScope _ _ a => a

/-- The name. A pointer has that of its target, a hidden identifier the one it had. -/
def name : Identifier → String
  | var n _ => n
  | heap _ n _ => n
  | pointer t _ => t.name
  | outOfScope _ i _ => i.name

/-- Whether an identifier stands for several concrete locations. -/
def isWeak : Identifier → Bool
  | heap weak _ _ => weak
  | outOfScope _ inner _ => inner.isWeak
  | _ => false

/-- Whether an identifier is a variable of the current scope. -/
def isVariable : Identifier → Bool
  | var .. => true
  | _ => false

/-- Whether an identifier is a heap location. -/
def isHeap : Identifier → Bool
  | heap .. => true
  | _ => false

/-- Whether an identifier is a pointer. -/
def isPointer : Identifier → Bool
  | pointer .. => true
  | _ => false

/-- What a pointer points to. -/
def target? : Identifier → Option Identifier
  | pointer t _ => some t
  | _ => none

/-- Replaces the annotations. -/
def withNote (id : Identifier) (a : Annotation) : Identifier :=
  match id with
  | var n _ => var n a
  | heap w n _ => heap w n a
  | pointer t _ => pointer t a
  | outOfScope s i _ => outOfScope s i a

/-- Records inferred runtime types. -/
def withRuntimeTypes (id : Identifier) (ts : TypeSet) : Identifier :=
  id.withNote { id.note with runtimeTypes? := some ts }

/-- The inferred runtime types; every instance of the static type where none were inferred. -/
def runtimeTypes (id : Identifier) : TypeSet := id.note.runtimeTypes

/-! ## Equality and order -/

/-- Whether two identifiers are of one kind and have equal parts. -/
def same : Identifier → Identifier → Bool
  | var m _, var n _ => m == n
  | heap v m _, heap w n _ => v == w && m == n
  | pointer t _, pointer u _ => t.same u
  | outOfScope s i _, outOfScope t j _ => s == t && i.same j
  | _, _ => false

instance : BEq Identifier := ⟨same⟩

/-- By name, then variables before heap locations before pointers before hidden identifiers. -/
def key : Identifier → List Atom
  | var n _ => [.text n, .number 0]
  | heap weak n _ => [.text n, .number 1, .number weak.toNat]
  | pointer t _ => .text t.name :: .number 2 :: t.key
  | outOfScope s i _ => .text i.name :: .number 3 :: (s.scoper.key ++ i.key)

instance : SortKey Identifier := ⟨key⟩

instance : Ord Identifier := SortKey.toOrd Identifier

instance : Std.TransOrd Identifier := SortKey.transCmp

/-! ## Text -/

/-- The name, with marks for what is not a variable. -/
def text : Identifier → String
  | var n _ => n
  | heap true n _ => "heap[w]:" ++ n
  | heap false n _ => "heap[s]:" ++ n
  | pointer t _ => "&" ++ t.text
  | outOfScope s i _ => "[" ++ render s ++ "]" ++ i.text

instance : Render Identifier := ⟨text, fun i => .text i.text⟩

/-! ## Scopes -/

/-- Hides an identifier behind a call. Heap locations and pointers are global and stay visible. -/
def pushScope (token : ScopeToken) : Identifier → Identifier
  | heap w n a => heap w n a
  | pointer t a => pointer t a
  | var n a => outOfScope token (var n a) a
  | outOfScope s i a => outOfScope token (outOfScope s i a) a

/-- Shows again what was hidden behind a call. Variables of the call and identifiers hidden behind
another one do not survive. -/
def popScope? (token : ScopeToken) : Identifier → Option Identifier
  | heap w n a => some (heap w n a)
  | pointer t a => some (pointer t a)
  | var _ _ => none
  | outOfScope s i _ => if s = token then some i else none

/-- Identifiers are equal by name, whatever their annotations say. -/
theorem name_eq_of_beq {a b : Identifier} (h : (a == b) = true) : a.name = b.name := by
  change a.same b = true at h
  induction a generalizing b with
  | var => cases b <;> simp_all [same, name]
  | heap => cases b <;> simp_all [same, name]
  | pointer t _ ih =>
    cases b with
    | pointer u _ => exact ih (b := u) h
    | _ => cases h
  | outOfScope s i _ ih =>
    cases b with
    | outOfScope t j _ => exact ih (b := j) (Bool.and_eq_true_iff.1 h).2
    | _ => cases h

/-- An identifier that was hidden behind a call is shown again unchanged. -/
theorem popScope?_pushScope (token : ScopeToken) (id : Identifier) :
    (id.pushScope token).popScope? token = some id := by
  cases id <;> simp [pushScope, popScope?]

/-- Locations on the heap are the same inside and outside of a call. -/
theorem pushScope_of_isHeap {token : ScopeToken} {id : Identifier} (h : id.isHeap = true) :
    id.pushScope token = id := by
  cases id <;> simp_all [isHeap, pushScope]

end Identifier

end Overapprox
