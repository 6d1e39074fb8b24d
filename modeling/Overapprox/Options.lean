import Overapprox.Order.Set

/-!
# Options of an analysis

The only option says how the bounds of a quotient are rounded. It is read from an argument list: a
pass over the list finds the flags, and then every flag is removed, together with the argument after
it. The positions that were found are removed from the back, so none of them has moved by then.

* `Options.removeAll?_eq`: what is left when positions are removed.
* `Options.mem_positions_find_iff`: which positions are found.
-/

namespace Overapprox

/-- How the bounds of an interval quotient are rounded. -/
inductive DivisionRounding where
  /-- Every quotient of bounds is truncated, as machine division does. -/
  | towardZero
  /-- The lower bound is rounded down and the upper one up, so no rational quotient is lost. -/
  | outward
deriving DecidableEq, Repr

/-- The options of an analysis. -/
structure Options where
  /-- How the bounds of an interval quotient are rounded. -/
  divisionRounding : DivisionRounding := .towardZero
deriving DecidableEq, Repr

namespace Options

/-- The flag before the name of a rounding. -/
def roundingFlag : String := "--division_rounding"

/-- The rounding of a name. -/
def rounding? : String → Option DivisionRounding
  | "toward_zero" => some .towardZero
  | "outward" => some .outward
  | _ => none

/-! ## Finding -/

/-- What a pass over an argument list has found: the options, and the positions of the arguments
that are to be removed, some of them twice. -/
structure Found where
  options : Options := {}
  positions : List Nat := []

/-- Looks at an argument and its position. A flag without a valid name after it sets nothing, but
what is after it is removed all the same. -/
def Found.visit (args : List String) (found : Found) (e : String × Nat) : Found :=
  if e.1 == roundingFlag then
    { options :=
        match args[e.2 + 1]?.bind rounding? with
        | some r => { found.options with divisionRounding := r }
        | none => found.options
      positions := found.positions ++ if e.2 + 1 < args.length then [e.2, e.2 + 1] else [e.2] }
  else found

/-- Looks at the arguments in turn. -/
def find (args : List String) : Found := args.zipIdx.foldl (Found.visit args) {}

/-! ## Removing -/

/-- Removes the argument at a position; not possible where there is none. -/
def removeAt? (args : List String) (i : Nat) : Option (List String) :=
  if i < args.length then some (args.eraseIdx i) else none

/-- There is no argument out of range to remove. -/
theorem removeAt?_eq_none_iff {args : List String} {i : Nat} :
    removeAt? args i = none ↔ args.length ≤ i := by
  simp [removeAt?]

/-- Removes the arguments at some positions, the last one first. -/
def removeAll? (args : List String) (is : List Nat) : Option (List String) :=
  is.foldrM (fun i left => removeAt? left i) args

/-- The arguments at the positions with a property, in order. -/
def keep (p : Nat → Bool) (args : List String) : List String :=
  (args.zipIdx.filter fun e => p e.2).map Prod.fst

theorem keep_of_forall {p : Nat → Bool} {args : List String} (h : ∀ n < args.length, p n = true) :
    keep p args = args := by
  have hkept : (args.zipIdx.filter fun e => p e.2) = args.zipIdx := by
    refine List.filter_eq_self.2 fun e he => h e.2 ?_
    simpa using List.snd_lt_add_of_mem_zipIdx he
  rw [keep, hkept, List.zipIdx_map_fst]

/-- The arguments before a position that all of them keep, the one at this position, and those after
it. -/
theorem keep_append_cons {p : Nat → Bool} {xs : List String} (hxs : ∀ n < xs.length, p n = true)
    (a : String) (ys : List String) :
    keep p (xs ++ a :: ys) = xs ++ ((if p xs.length then [a] else []) ++
      ((ys.zipIdx (xs.length + 1)).filter fun e => p e.2).map Prod.fst) := by
  rw [keep, List.zipIdx_append, List.zipIdx_cons, Nat.zero_add, List.filter_append, List.map_append]
  show keep p xs ++ _ = _
  rw [keep_of_forall hxs, List.filter_cons]
  split <;> rfl

theorem exists_append_cons {args : List String} {i : Nat} (h : i < args.length) :
    ∃ xs a ys, args = xs ++ a :: ys ∧ xs.length = i :=
  ⟨args.take i, args[i], args.drop (i + 1), by simp, List.length_take_of_le (Nat.le_of_lt h)⟩

/-- By induction on the positions. The ones that are removed first lie behind the others, so the
arguments before them are still where they were. -/
theorem removeAll?_eq {args : List String} {is : List Nat} (hsorted : is.Pairwise (· < ·))
    (hargs : ∀ i ∈ is, i < args.length) :
    removeAll? args is = some (keep (fun i => decide (i ∉ is)) args) := by
  induction is with
  | nil => rw [keep_of_forall (by simp), removeAll?, List.foldrM_nil]; rfl
  | cons i is ih =>
    obtain ⟨hi, hrest⟩ := List.pairwise_cons.1 hsorted
    have hlater := ih hrest fun j hj => hargs j (List.mem_cons_of_mem _ hj)
    obtain ⟨xs, a, ys, rfl, rfl⟩ := exists_append_cons (hargs i List.mem_cons_self)
    have hbefore : ∀ n < xs.length, n ∉ is := fun n hn hmem => by
      have := hi n hmem
      omega
    have hhere : xs.length ∉ is := fun hmem => Nat.lt_irrefl _ (hi _ hmem)
    have hafter : ((ys.zipIdx (xs.length + 1)).filter fun e => decide (e.2 ∉ xs.length :: is)) =
        (ys.zipIdx (xs.length + 1)).filter fun e => decide (e.2 ∉ is) := by
      refine List.filter_congr fun e he => ?_
      have := List.le_snd_of_mem_zipIdx he
      simp [Nat.ne_of_gt this]
    rw [keep_append_cons (by simpa using hbefore)] at hlater
    rw [removeAll?, List.foldrM_cons, ← removeAll?, hlater,
      keep_append_cons fun n hn => by simpa [Nat.ne_of_lt hn] using hbefore n hn, hafter]
    simp [removeAt?, hhere, List.eraseIdx_append_of_length_le]

/-! ## Reading -/

/-- Takes the options out of an argument list; not possible if a position to be removed is out of
range. -/
def takeOptions? (args : List String) : Option (Options × List String) :=
  let found := find args
  (removeAll? args (OrdSet.ofList found.positions).toList).map (found.options, ·)

/-- A flag takes its own position and that of the argument after it, if there is one. -/
theorem Found.mem_positions_visit {args : List String} {found : Found} {e : String × Nat} {i : Nat} :
    i ∈ (found.visit args e).positions ↔ i ∈ found.positions ∨
      e.1 = roundingFlag ∧ (i = e.2 ∨ i = e.2 + 1 ∧ i < args.length) := by
  unfold visit
  by_cases he : e.1 = roundingFlag
  · have hadded : i ∈ (if e.2 + 1 < args.length then [e.2, e.2 + 1] else [e.2]) ↔
        i = e.2 ∨ i = e.2 + 1 ∧ i < args.length := by
      split
      · simp
        omega
      · simp
        omega
    simp [he, hadded]
  · simp [he]

/-- What a pass takes on top of the positions that were taken before. -/
theorem Found.mem_positions_foldl {args : List String} {es : List (String × Nat)} {found : Found}
    {i : Nat} :
    i ∈ (es.foldl (visit args) found).positions ↔ i ∈ found.positions ∨
      ∃ e ∈ es, e.1 = roundingFlag ∧ (i = e.2 ∨ i = e.2 + 1 ∧ i < args.length) := by
  induction es generalizing found with
  | nil => simp
  | cons e es ih => simp [ih, mem_positions_visit, or_assoc]

/-- A position is found where there is a flag, or right after one. -/
theorem mem_positions_find_iff {args : List String} {i : Nat} :
    i ∈ (find args).positions ↔ i < args.length ∧
      (args[i]? = some roundingFlag ∨ ∃ j, i = j + 1 ∧ args[j]? = some roundingFlag) := by
  rw [find, Found.mem_positions_foldl]
  constructor
  · rintro (h | ⟨⟨arg, j⟩, he, rfl, rfl | ⟨rfl, hi⟩⟩)
    · cases h
    · have hflag := List.mem_zipIdx_iff_getElem?.1 he
      exact ⟨(List.getElem?_eq_some_iff.1 hflag).1, .inl hflag⟩
    · exact ⟨hi, .inr ⟨j, rfl, List.mem_zipIdx_iff_getElem?.1 he⟩⟩
  · rintro ⟨hi, hflag | ⟨j, rfl, hflag⟩⟩
    · exact .inr ⟨(_, i), List.mem_zipIdx_iff_getElem?.2 hflag, rfl, .inl rfl⟩
    · exact .inr ⟨(_, j), List.mem_zipIdx_iff_getElem?.2 hflag, rfl, .inr ⟨rfl, hi⟩⟩

/-- Only positions of arguments are found, so all of them can be removed. -/
theorem takeOptions?_eq (args : List String) :
    takeOptions? args = some ((find args).options,
      keep (fun i => decide (i ∉ (find args).positions)) args) := by
  have hmem (i : Nat) : i ∈ (OrdSet.ofList (find args).positions).toList ↔
      i ∈ (find args).positions := by
    have hcontains := OrdSet.contains_ofList (find args).positions i
    simpa [OrdSet.contains] using Bool.eq_iff_iff.1 hcontains
  have hsorted : (OrdSet.ofList (find args).positions).toList.Pairwise (· < ·) :=
    (OrdSet.sorted _).imp Nat.compare_eq_lt.1
  have hargs (i : Nat) (hi : i ∈ (OrdSet.ofList (find args).positions).toList) : i < args.length :=
    (mem_positions_find_iff.1 ((hmem i).1 hi)).1
  rw [takeOptions?, removeAll?_eq hsorted hargs]
  simp [hmem]

/-- Takes the options out of an argument list. The last flag with a valid name after it counts. -/
def fromArgs (args : List String) : Options × List String :=
  (takeOptions? args).get (by rw [takeOptions?_eq]; rfl)

end Options

end Overapprox
