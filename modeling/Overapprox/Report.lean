import Overapprox.Order.Set
import Overapprox.Text.Quoted

/-!
# Printed forms

A value has two printed forms: one line of text, and a report, a tree of texts, numbers, lists and
named fields that a front end can store or show.

* `Report.find?_setField_self`, `Report.find?_setField_of_ne`: a field set last is the one read.
-/

namespace Overapprox

/-- A tree of texts and numbers. -/
inductive Report where
  | text (s : String)
  | number (n : Nat)
  | list (items : List Report)
  | fields (entries : List (String × Report))

namespace Report

/-- Sets one field, in the place of an earlier field of that name. -/
def setField (name : String) (r : Report) : List (String × Report) → List (String × Report)
  | [] => [(name, r)]
  | e :: rest => if e.1 = name then (name, r) :: rest else e :: setField name r rest

/-- Named fields. Of several fields with one name the last counts. -/
def ofFields (entries : List (String × Report)) : Report :=
  .fields (entries.foldl (fun es e => setField e.1 e.2 es) [])

/-- The list of some texts. -/
def texts (ss : List String) : Report := .list (ss.map .text)

/-- A field that is set is found under its name. -/
theorem find?_setField_self (name : String) (r : Report) :
    ∀ es : List (String × Report),
      (setField name r es).find? (fun e => decide (e.1 = name)) = some (name, r)
  | [] => by simp [setField]
  | e :: rest => by by_cases h : e.1 = name <;> simp [setField, h, find?_setField_self name r rest]

theorem find?_setField_of_ne {name other : String} (r : Report) (h : other ≠ name) :
    ∀ es : List (String × Report),
      (setField name r es).find? (fun e => decide (e.1 = other))
        = es.find? (fun e => decide (e.1 = other))
  | [] => by simp [setField, h.symm]
  | e :: rest => by
    by_cases he : e.1 = name
    · simp [setField, he, h.symm]
    · by_cases ho : e.1 = other <;> simp [setField, he, ho, h, find?_setField_of_ne r h rest]

end Report

/-- Types whose values have a text and a report. -/
class Render (α : Type) where
  /-- The value on one line. -/
  render : α → String
  /-- The value as a tree; its line of text, where nothing better is known. -/
  report : α → Report := fun a => .text (render a)

export Render (render report)

/-- Among other values a text stands quoted. -/
instance : Render String := ⟨Text.quote, fun s => .text (Text.quote s)⟩

/-- A finite set is printed between braces, and reported as the list of its elements' texts. -/
instance {α : Type} [Ord α] [Render α] : Render (OrdSet α) where
  render s := Text.braces (s.toList.map render)
  report s := .texts (s.toList.map render)

/-- The mark of a value about which nothing is known. -/
def topMark : String := "#TOP#"

/-- The mark of a value that cannot arise. -/
def bottomMark : String := "_|_"

end Overapprox
