import Overapprox.Lattice.Basic
import Overapprox.Order.Map
import Overapprox.Report

/-!
# Functions into a lattice

A function from keys to abstract values is a finite table; a key that the table does not bind is
mapped to top. The functions that map every key to top or to bottom also have marks of their own,
next to the tables.

* `Pointwise.get_put_self`, `Pointwise.get_put_of_ne`: reading after a write.
* `Pointwise.get_forget_self`, `Pointwise.get_forget_of_ne`: reading after a binding is dropped.
-/

namespace Overapprox

open AbstractLattice

/-- A function from keys to abstract values that is top almost everywhere, or the bottom one. -/
inductive Pointwise (κ ν : Type) [Ord κ] where
  | top
  | bottom
  | table (bindings : OrdMap κ ν)

namespace Pointwise

variable {κ ν : Type} [Ord κ]

/-- The bindings that are listed; none under a mark. -/
def bindings : Pointwise κ ν → OrdMap κ ν
  | table m => m
  | _ => .empty

/-- The listed bindings in key order. -/
def entries (f : Pointwise κ ν) : List (κ × ν) := f.bindings.entries

/-- The listed keys in order. -/
def keys (f : Pointwise κ ν) : List κ := f.bindings.keys

/-- Whether `k` is listed. -/
def contains (f : Pointwise κ ν) (k : κ) : Bool := f.bindings.contains k

/-- The number of listed keys. -/
def size (f : Pointwise κ ν) : Nat := f.bindings.size

/-- Whether no key is listed. -/
def isEmpty (f : Pointwise κ ν) : Bool := f.bindings.isEmpty

/-- The function without bindings, which maps every key to top. -/
def empty : Pointwise κ ν := table .empty

instance : EmptyCollection (Pointwise κ ν) := ⟨empty⟩

instance : Inhabited (Pointwise κ ν) := ⟨empty⟩

/-- Whether both bear the same mark, or list equal bindings. -/
protected def beq [BEq κ] [BEq ν] : Pointwise κ ν → Pointwise κ ν → Bool
  | top, top => true
  | bottom, bottom => true
  | table m, table n => m == n
  | _, _ => false

instance [BEq κ] [BEq ν] : BEq (Pointwise κ ν) := ⟨Pointwise.beq⟩

/-- Drops the binding of `k`. -/
def forget (f : Pointwise κ ν) (k : κ) : Pointwise κ ν :=
  match f with
  | table m => table (m.erase k)
  | marked => marked

instance [Render κ] [Render ν] : Render (Pointwise κ ν) where
  render
    | bottom => bottomMark
    | top => topMark
    | table m => Text.braces (m.entries.map fun e => Text.entry (render e.1) (render e.2))
  report
    | bottom => .text bottomMark
    | top => .text topMark
    | table m => .ofFields (m.entries.map fun e => (render e.1, report e.2))

/-- Reads the value of `k`. -/
def get [BEq ν] [AbstractLattice ν] (f : Pointwise κ ν) (k : κ) : ν :=
  match f with
  | bottom => AbstractLattice.bottom
  | top => AbstractLattice.top
  | table m => (m.find? k).getD AbstractLattice.top

variable [Std.TransOrd κ]

/-- Binds `k` to `v`. A marked function loses its mark and keeps nothing else. -/
def put (f : Pointwise κ ν) (k : κ) (v : ν) : Pointwise κ ν := table (f.bindings.insert k v)

/-- Renames the keys, dropping those without a new name. When two keys get one name the value of
the later key stays. -/
def renameKeys (f : Pointwise κ ν) (rename : κ → Option κ) : Pointwise κ ν :=
  match f with
  | table m => table (.ofList (m.entries.filterMap fun e => (rename e.1).map (·, e.2)))
  | marked => marked

variable [BEq κ] [BEq ν] [AbstractLattice ν]

/-- Combines the values of the keys that both functions list. -/
def zipCommon (op : ν → ν → ν) (f g : Pointwise κ ν) : Pointwise κ ν :=
  table (f.bindings.filterMap fun k v => (g.bindings.find? k).map (op v))

/-- Lists the keys of both functions, with the meet of the values where both list a key. -/
def meetAll (f g : Pointwise κ ν) : Pointwise κ ν :=
  table (g.entries.foldl
    (fun m e => m.insert e.1 (((f.bindings.find? e.1).map (meet · e.2)).getD e.2)) f.bindings)

instance : AbstractLattice (Pointwise κ ν) where
  top := top
  bottom := bottom
  isTop
    | top => true
    | bottom => false
    | table m => m.values.all isTop
  isBottom
    | bottom => true
    | _ => false
  properJoin := zipCommon join
  properMeet := meetAll
  properWiden := zipCommon widen
  properLe f g := g.entries.all fun e => le (f.get e.1) e.2

/-! ## Reading -/

omit [BEq κ] in
/-- What is put for a key is read back for it, even where the function was bottom before. -/
theorem get_put_self (f : Pointwise κ ν) (k : κ) (v : ν) : (f.put k v).get k = v := by
  simp [put, get, OrdMap.find?_insert_self]

omit [BEq κ] in
/-- Putting a value for one key leaves the others alone. A bottom function becomes a table, so it
has to be excluded. -/
theorem get_put_of_ne {f : Pointwise κ ν} {k l : κ} (v : ν) (hl : compare l k ≠ .eq)
    (hf : f ≠ bottom) : (f.put k v).get l = f.get l := by
  cases f with
  | top => simp [put, get, bindings, OrdMap.find?_insert_of_ne _ v hl]
  | bottom => exact absurd rfl hf
  | table m => simp [put, get, bindings, OrdMap.find?_insert_of_ne _ v hl]

omit [Std.TransOrd κ] [BEq κ] in
/-- A key that is forgotten may have any value. -/
theorem get_forget_self {f : Pointwise κ ν} (k : κ) (hf : f ≠ bottom) :
    (f.forget k).get k = AbstractLattice.top := by
  cases f with
  | top => rfl
  | bottom => exact absurd rfl hf
  | table m => simp [forget, get, OrdMap.find?_erase_self]

omit [BEq κ] in
theorem get_forget_of_ne (f : Pointwise κ ν) {k l : κ} (hl : compare l k ≠ .eq) :
    (f.forget k).get l = f.get l := by
  cases f <;> simp [forget, get, OrdMap.find?_erase_of_ne _ hl]

end Pointwise

end Overapprox
