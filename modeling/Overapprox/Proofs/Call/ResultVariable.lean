import Overapprox.Proofs.Call.Results
import Overapprox.Proofs.State.Call

/-!
# Result variables

The result variable of a call is named after the location of the call. The text of a position ends
in a line and a column, which are numerals and have no colons, so its last two colons are those that
the text puts there, whatever colons and digits are in the file name. The text of what has no
position has no colon at all. So a location can be told from its text, and calls at different
locations have different result variables: none of them overwrites what another one has returned.

* `Text.append_colon_inj`: a text splits in one way at its last colon.
* `Location.text_inj`: locations with one text are the same.
* `Call.metaVariable_beq_iff`: calls share a result variable exactly when they share a location.
* `Call.exists_semantics_of_ne`: a call writes to no variable but its result variable.
* `Call.exists_semantics_of_location_ne`: a result is still known after a call somewhere else.
-/

namespace Overapprox

open AbstractLattice

/-! ## Texts with colons -/

namespace Text

/-- Numerals read back as the numbers they are of. -/
theorem toString_inj {m n : Nat} : toString m = toString n ↔ m = n := by
  refine ⟨fun h => ?_, fun h => by rw [h]⟩
  have hdigits : Nat.toDigits 10 m = Nat.toDigits 10 n := by
    rw [← Nat.toList_repr, ← Nat.toList_repr]
    exact congrArg String.toList h
  have hread (k : Nat) : Nat.ofDigitChars 10 (Nat.toDigits 10 k) 0 = k :=
    Nat.ofDigitChars_toDigits (by decide) (by decide)
  calc
    m = Nat.ofDigitChars 10 (Nat.toDigits 10 m) 0 := (hread m).symm
    _ = Nat.ofDigitChars 10 (Nat.toDigits 10 n) 0 := by rw [hdigits]
    _ = n := hread n

theorem colon_notMem_toString (n : Nat) : ':' ∉ (toString n).toList := by
  rw [Nat.toString_eq_repr, Nat.toList_repr]
  intro hmem
  have hdigit : ':'.isDigit = true := Nat.isDigit_of_mem_toDigits (by decide) (by decide) hmem
  cases hdigit

section Split

variable {c : Char} {x y r s : List Char}

/-- Nothing stands before the last occurrence of a character in a list that starts with it. -/
theorem eq_nil_of_cons_eq_append (hr : c ∉ r) (h : c :: r = x ++ c :: s) : x = [] := by
  cases x with
  | nil => rfl
  | cons a x =>
    obtain ⟨-, rfl⟩ := List.cons.inj h
    exact absurd List.mem_append_cons_self hr

/-- Lists split in one way at the last occurrence of a character; before it there may be more. -/
theorem append_cons_inj (hr : c ∉ r) (hs : c ∉ s) :
    x ++ c :: r = y ++ c :: s ↔ x = y ∧ r = s := by
  refine ⟨fun h => ?_, by rintro ⟨rfl, rfl⟩; rfl⟩
  obtain ⟨z, rfl, htail⟩ | ⟨z, rfl, htail⟩ := List.append_eq_append_iff.1 h
  · obtain rfl := eq_nil_of_cons_eq_append hr htail
    exact ⟨(List.append_nil x).symm, (List.cons.inj htail).2⟩
  · obtain rfl := eq_nil_of_cons_eq_append hs htail
    exact ⟨List.append_nil y, (List.cons.inj htail).2.symm⟩

end Split

/-- Texts with no colon in their last parts are equal when they agree before and after the last
colon. -/
theorem append_colon_inj {x y r s : String} (hr : ':' ∉ r.toList) (hs : ':' ∉ s.toList) :
    x ++ ":" ++ r = y ++ ":" ++ s ↔ x = y ∧ r = s := by
  have hlists := append_cons_inj (x := x.toList) (y := y.toList) hr hs
  simpa [← String.toList_inj] using hlists

end Text

/-! ## Locations -/

namespace Location

theorem text_source_ne_text_synthetic (file : String) (line col : UInt32) :
    (source file line col).text ≠ synthetic.text := by
  intro h
  have hcolon : ':' ∈ (source file line col).text.toList := by simp [text]
  have hnone : ':' ∉ synthetic.text.toList := by decide
  exact hnone (h ▸ hcolon)

/-- The column follows the last colon of the text of a position, and the line the one before. -/
theorem text_inj {a b : Location} : a.text = b.text ↔ a = b := by
  refine ⟨fun h => ?_, fun h => by rw [h]⟩
  cases a with
  | source f l c =>
    cases b with
    | source g m d =>
      obtain ⟨hbefore, hcol⟩ := (Text.append_colon_inj (Text.colon_notMem_toString _)
        (Text.colon_notMem_toString _)).1 h
      obtain ⟨rfl, hline⟩ := (Text.append_colon_inj (Text.colon_notMem_toString _)
        (Text.colon_notMem_toString _)).1 hbefore
      rw [Text.toString_inj, UInt32.toNat_inj] at hline hcol
      rw [hline, hcol]
    | synthetic => exact absurd h (text_source_ne_text_synthetic f l c)
  | synthetic =>
    cases b with
    | source g m d => exact absurd h.symm (text_source_ne_text_synthetic g m d)
    | synthetic => rfl

end Location

/-! ## Names of result variables -/

namespace Call

variable {c d : Call}

/-- Result variables have the same name exactly when their calls are at the same place. -/
theorem name_metaVariable_inj :
    c.metaVariable.name = d.metaVariable.name ↔ c.location = d.location := by
  show "call_ret_value@" ++ c.location.text = "call_ret_value@" ++ d.location.text ↔ _
  rw [String.append_right_inj, Location.text_inj]

/-- Calls have the same result variable exactly when they are at the same position, or when none of
them has a position. Their targets and their types make no difference. -/
theorem metaVariable_beq_iff (c d : Call) :
    (c.metaVariable == d.metaVariable) = true ↔ c.location = d.location := by
  constructor
  · intro h
    exact name_metaVariable_inj.1 (Identifier.name_eq_of_beq h)
  · intro h
    show (c.metaVariable.name == d.metaVariable.name) = true
    rw [beq_iff_eq]
    exact name_metaVariable_inj.2 h

theorem compare_metaVariable_ne (h : c.location ≠ d.location) :
    compare c.metaVariable d.metaVariable ≠ .eq := by
  intro heq
  have hbeq := Std.LawfulBEqOrd.compare_eq_iff_beq.1 heq
  exact h (name_metaVariable_inj.1 (Identifier.name_eq_of_beq hbeq))

end Call

/-! ## What calls leave alone -/

namespace State

variable {opts : Options} {s s' : State SummaryHeap} {x y : Identifier} {e : SymExpr}
  {v : Interval} {ts : InferredTypes}

theorem knows_assign (hs : s.composite.Knows y v ts) (hy : compare y x ≠ .eq)
    (hassign : s.assign opts x e = .ok s') : s'.composite.Knows y v ts := by
  obtain ⟨t, ht, hs'⟩ := Outcome.exists_of_bind hassign
  cases hs'
  exact hs.assign hy ht

/-- A join of states knows what all of them know. -/
theorem knows_joinOver {ι : Type} {f : ι → State SummaryHeap} {is : List ι}
    (h : ∀ i ∈ is, (f i).composite.Knows y v ts) : (joinOver f is).composite.Knows y v ts :=
  joinOver_keeps (p := fun s : State SummaryHeap => s.composite.Knows y v ts)
    ⟨.inl rfl, .inl rfl⟩ knows_join h

end State

namespace Call

variable {opts : Options} {c d : Call} {r entry : State SummaryHeap} {y : Identifier}
  {resolve : Resolver SummaryHeap} {parameters : List ExprSet} {v : Interval} {ts : InferredTypes}

/-- Storing an expression in the result variable leaves what is known about the others. -/
theorem StoresAs.knows {stored : SymExpr → State SummaryHeap} (h : c.StoresAs opts r stored)
    (hr : r.composite.Knows y v ts) (hy : compare y c.metaVariable ≠ .eq) (e : SymExpr) :
    (stored e).composite.Knows y v ts := by
  obtain ⟨s, hassign, hstep⟩ := h e
  obtain ⟨s', hstep', hknows⟩ := s.exists_step opts (.ofIdentifier c.metaVariable)
  rw [hstep'] at hstep
  cases hstep
  exact hknows (State.knows_assign hr hy hassign)

/-- A call whose target returns has a result, in which all but its result variable has the values
and the types that it had at the return, unless nothing is left of these components. -/
theorem exists_semantics_of_ne
    (hresolve : resolve c { entry with stack := .empty } parameters = .ok r)
    (hr : r.composite.Knows y v ts) (hy : compare y c.metaVariable ≠ .eq) :
    ∃ s, c.semantics opts resolve entry parameters = .ok s ∧ s.composite.Knows y v ts := by
  cases hreturns : c.returnsNothing r.stack with
  | true =>
    obtain ⟨s, hstep, hknows⟩ := r.exists_step opts (.skip ⟨.void, none, c.location⟩)
    exact ⟨s, (semantics_eq_step hresolve hreturns).trans hstep, hknows hr⟩
  | false =>
    obtain ⟨stored, hstored⟩ := exists_storesAs opts c r
    refine ⟨_, semantics_eq_joinOver hresolve hreturns hstored, ?_⟩
    exact State.knows_joinOver fun e _ => hstored.knows hr hy e

/-- What is known of the result of a call when a target called elsewhere returns is still known
after that other call. -/
theorem exists_semantics_of_location_ne (h : c.location ≠ d.location)
    (hresolve : resolve d { entry with stack := .empty } parameters = .ok r)
    (hr : r.composite.Knows c.metaVariable v ts) :
    ∃ s, d.semantics opts resolve entry parameters = .ok s ∧
      s.composite.Knows c.metaVariable v ts :=
  exists_semantics_of_ne hresolve hr (compare_metaVariable_ne h)

end Call

end Overapprox
