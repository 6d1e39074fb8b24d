import Overapprox.Order.Atom
import Overapprox.Report

/-!
# Types of the analysed program

A type is one of the built-in types, a named unit whose instances live in the heap, or a reference
to an instance of one of some types. The types of a reference are listed in order and without
repetition: `Ty.referenceTo` builds references from sets.

* `Ty.key_append_inj`: the sort key of a type tells where it ends and which type it is.
* `Ty.key_injective`: types are equal exactly when their keys are.
-/

namespace Overapprox

/-- The types that every program has, in their order. -/
inductive Builtin where
  | untyped | void | null | bool
  | int8 | int16 | int32 | int64
  | uint8 | uint16 | uint32 | uint64
  | float32 | float64
  | string
deriving DecidableEq, Repr

namespace Builtin

/-- The name of a type. -/
def text : Builtin → String
  | untyped => "untyped"
  | void => "void"
  | null => "null"
  | bool => "bool"
  | int8 => "int8"
  | int16 => "int16"
  | int32 => "int32"
  | int64 => "int64"
  | uint8 => "uint8"
  | uint16 => "uint16"
  | uint32 => "uint32"
  | uint64 => "uint64"
  | float32 => "float32"
  | float64 => "float64"
  | string => "string"

/-- All built-in types, in their order. -/
def all : List Builtin :=
  [untyped, void, null, bool, int8, int16, int32, int64, uint8, uint16, uint32, uint64, float32,
    float64, string]

/-- The built-in type of a name. -/
def ofText? (s : String) : Option Builtin := all.find? fun b => b.text == s

/-- The width of a numeric type. -/
def bits? : Builtin → Option Nat
  | int8 | uint8 => some 8
  | int16 | uint16 => some 16
  | int32 | uint32 | float32 => some 32
  | int64 | uint64 | float64 => some 64
  | _ => none

/-- Whether values are integers. -/
def isIntegral : Builtin → Bool
  | int8 | int16 | int32 | int64 | uint8 | uint16 | uint32 | uint64 => true
  | _ => false

/-- Whether values are integers without a sign. -/
def isUnsigned : Builtin → Bool
  | uint8 | uint16 | uint32 | uint64 => true
  | _ => false

end Builtin

/-- A type of the analysed program. -/
inductive Ty where
  | builtin (b : Builtin)
  /-- A named type whose instances live in the heap. -/
  | unit (name : String)
  /-- A pointer to an instance of one of the inner types. -/
  | reference (inner : List Ty)

namespace Ty

/-! ## Order and equality -/

mutual

/-- Built-in types in their order, then units by name, then references by their inner types. -/
def key : Ty → List Atom
  | builtin b => [.number b.ctorIdx]
  | unit name => [.number 15, .text name]
  | reference inner => .number 16 :: keys inner

/-- The keys of some types, one after the other, an end before any further type. -/
def keys : List Ty → List Atom
  | [] => [.number 0]
  | t :: ts => .number 1 :: (key t ++ keys ts)

end

/-- The builtin types are listed in the order in which they are numbered. -/
theorem all_getElem?_ctorIdx (b : Builtin) : Builtin.all[b.ctorIdx]? = some b := by
  cases b <;> rfl

theorem ctorIdx_injective {a b : Builtin} (h : a.ctorIdx = b.ctorIdx) : a = b := by
  have ha := all_getElem?_ctorIdx a
  rw [h, all_getElem?_ctorIdx b] at ha
  exact (Option.some.inj ha).symm

theorem ctorIdx_lt (b : Builtin) : b.ctorIdx < 15 := by cases b <;> decide

mutual

/-- A sort key that begins with that of a type determines it and what follows. -/
theorem key_append_inj : ∀ {a b : Ty} {r s : List Atom},
    a.key ++ r = b.key ++ s → a = b ∧ r = s
  | builtin a, builtin b, r, s, h => by
    simp only [key, List.cons_append, List.nil_append, List.cons.injEq, Atom.number.injEq,
      Int.natCast_inj] at h
    exact ⟨congrArg _ (ctorIdx_injective h.1), h.2⟩
  | builtin a, unit _, r, s, h => by
    have := ctorIdx_lt a
    simp only [key, List.cons_append, List.cons.injEq, Atom.number.injEq] at h
    omega
  | builtin a, reference _, r, s, h => by
    have := ctorIdx_lt a
    simp only [key, List.cons_append, List.cons.injEq, Atom.number.injEq] at h
    omega
  | unit _, builtin b, r, s, h => by
    have := ctorIdx_lt b
    simp only [key, List.cons_append, List.cons.injEq, Atom.number.injEq] at h
    omega
  | unit _, unit _, r, s, h => by simpa [key] using h
  | unit _, reference _, r, s, h => by simp [key] at h
  | reference _, builtin b, r, s, h => by
    have := ctorIdx_lt b
    simp only [key, List.cons_append, List.cons.injEq, Atom.number.injEq] at h
    omega
  | reference _, unit _, r, s, h => by simp [key] at h
  | reference xs, reference ys, r, s, h => by
    have h' : keys xs ++ r = keys ys ++ s := by simpa [key] using h
    obtain ⟨rfl, rfl⟩ := keys_append_inj h'
    exact ⟨rfl, rfl⟩

/-- The same for a list of types, whose key ends where the list does. -/
theorem keys_append_inj : ∀ {xs ys : List Ty} {r s : List Atom},
    keys xs ++ r = keys ys ++ s → xs = ys ∧ r = s
  | [], [], r, s, h => by simpa [keys] using h
  | [], _ :: _, r, s, h => by simp [keys] at h
  | _ :: _, [], r, s, h => by simp [keys] at h
  | x :: xs, y :: ys, r, s, h => by
    have h' : x.key ++ (keys xs ++ r) = y.key ++ (keys ys ++ s) := by
      simpa [keys, List.append_assoc] using h
    obtain ⟨rfl, h''⟩ := key_append_inj h'
    obtain ⟨rfl, rfl⟩ := keys_append_inj h''
    exact ⟨rfl, rfl⟩

end

theorem key_injective {a b : Ty} (h : a.key = b.key) : a = b :=
  (key_append_inj (r := []) (s := []) (by rw [h])).1

instance : DecidableEq Ty := fun a b =>
  decidable_of_iff (a.key = b.key) ⟨key_injective, congrArg _⟩

instance : SortKey Ty := ⟨key⟩

instance : Ord Ty := SortKey.toOrd Ty

instance : Std.TransOrd Ty := SortKey.transCmp

instance : Std.LawfulEqOrd Ty where
  compare_self := SortKey.compare_self
  eq_of_compare h := key_injective (SortKey.compare_eq_iff.1 h)

/-! ## Text -/

mutual

/-- The name of a type. A reference is its inner type, or the set of them, before a star. -/
def text : Ty → String
  | builtin b => b.text
  | unit name => name
  | reference inner =>
    match texts inner with
    | [t] => t ++ "*"
    | ts => Text.braces ts ++ "*"

/-- The names of some types. -/
def texts : List Ty → List String
  | [] => []
  | t :: ts => text t :: texts ts

end

instance : Render Ty := ⟨text, fun t => .text t.text⟩

end Ty

/-- A finite set of types. -/
abbrev TypeSet := OrdSet Ty

namespace Ty

/-! ## Kinds of types -/

/-- The type of what nothing is known about. -/
@[match_pattern] abbrev untyped : Ty := builtin .untyped

/-- The type of statements. -/
@[match_pattern] abbrev void : Ty := builtin .void

/-- The type of the null constant. -/
@[match_pattern] abbrev null : Ty := builtin .null

/-- The type of truth values. -/
@[match_pattern] abbrev bool : Ty := builtin .bool

/-- The type of plain integers. -/
@[match_pattern] abbrev int32 : Ty := builtin .int32

/-- The type of texts. -/
@[match_pattern] abbrev string : Ty := builtin .string

/-- The reference to an instance of one of some types. -/
def referenceTo (inner : TypeSet) : Ty := reference inner.toList

/-- The width of a numeric type. -/
def bits? : Ty → Option Nat
  | builtin b => b.bits?
  | _ => none

/-- Whether values are numbers. -/
def isNumeric (t : Ty) : Bool := t.bits?.isSome

/-- Whether values are integers. -/
def isIntegral : Ty → Bool
  | builtin b => b.isIntegral
  | _ => false

/-- Whether values are integers without a sign. -/
def isUnsigned : Ty → Bool
  | builtin b => b.isUnsigned
  | _ => false

/-- Whether instances live in the heap. -/
def isInMemory : Ty → Bool
  | unit _ => true
  | _ => false

/-- Whether values point into the heap. -/
def isPointer : Ty → Bool
  | reference _ => true
  | _ => false

/-- The types that a reference may point to. -/
def inner? : Ty → Option TypeSet
  | reference inner => some (.ofList inner)
  | _ => none

/-- The types that a value of this static type may have. -/
def instances (t : Ty) : TypeSet := .singleton t

end Ty

end Overapprox
