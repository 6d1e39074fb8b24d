import Overapprox.Options

/-!
# What reading options takes out of an argument list

The flag is `--division_rounding`, and the roundings are `toward_zero` and `outward`. A flag may be
the last argument, and it may be the argument after another flag, in which case both of them take
part in removing it. Whatever the list, the positions that are removed are in range, and what is
left has no flags, so reading it again finds nothing.

* `DivisionRounding.IsNamed`: the names of the roundings.
* `Options.Names`: a flag that is followed by the name of a rounding.
* `Options.find_cases`: the last such flag counts.
* `Options.fromArgs_consumes`: what is taken out, and what is left.
-/

namespace Overapprox

/-- The names of the roundings in an argument list. -/
inductive DivisionRounding.IsNamed : DivisionRounding → String → Prop where
  | towardZero : IsNamed towardZero "toward_zero"
  | outward : IsNamed outward "outward"

namespace Options

variable {args : List String} {opts : Options} {found : Found} {i k : Nat} {r : DivisionRounding}

/-! ## Roundings -/

/-- There is a flag at a position, and after it the name of a rounding. -/
def Names (args : List String) (i : Nat) (r : DivisionRounding) : Prop :=
  args[i]? = some "--division_rounding" ∧ ∃ name, args[i + 1]? = some name ∧ r.IsNamed name

/-- The flag at a position is the last one that is followed by a name, and this name is that of a
rounding. -/
def LastNames (args : List String) (i : Nat) (r : DivisionRounding) : Prop :=
  Names args i r ∧ ∀ j s, Names args j s → j ≤ i

theorem rounding?_eq_some_iff {name : String} : rounding? name = some r ↔ r.IsNamed name := by
  constructor
  · intro h
    unfold rounding? at h
    split at h
    · cases h
      exact .towardZero
    · cases h
      exact .outward
    · cases h
  · rintro (_ | _)
    · rfl
    · rfl

/-- The pass over the list finds the names that there are. -/
theorem names_iff :
    Names args i r ↔ args[i]? = some roundingFlag ∧ args[i + 1]?.bind rounding? = some r := by
  simp only [Names, roundingFlag, Option.bind_eq_some_iff, rounding?_eq_some_iff]

theorem Found.options_visit_of_names (h : Names args i r) {arg : String}
    (harg : args[i]? = some arg) : (found.visit args (arg, i)).options = ⟨r⟩ := by
  obtain ⟨hflag, hname⟩ := names_iff.1 h
  obtain rfl : roundingFlag = arg := by simpa [hflag] using harg
  simp [visit, hname]

theorem Found.options_visit_of_not_names (h : ∀ r, ¬ Names args i r) {arg : String}
    (harg : args[i]? = some arg) : (found.visit args (arg, i)).options = found.options := by
  by_cases hflag : arg = roundingFlag
  · subst hflag
    have hname : args[i + 1]?.bind rounding? = none :=
      Option.eq_none_iff_forall_ne_some.2 fun r hr => h r (names_iff.2 ⟨harg, hr⟩)
    simp [visit, hname]
  · simp [visit, hflag]

/-- By induction on the rest of the list, from a position on. A name that is found later replaces
the rounding, and otherwise it stays as it was. -/
theorem Found.options_foldl {rest : List String} (h : args.drop k = rest) (found : Found) :
    (∃ i r, k ≤ i ∧ LastNames args i r ∧
      ((rest.zipIdx k).foldl (visit args) found).options = ⟨r⟩) ∨
    (∀ i r, k ≤ i → ¬ Names args i r) ∧
      ((rest.zipIdx k).foldl (visit args) found).options = found.options := by
  induction rest generalizing k found with
  | nil =>
    refine .inr ⟨fun i r hi hnames => ?_, rfl⟩
    have hlength := List.drop_eq_nil_iff.1 h
    have := (List.getElem?_eq_some_iff.1 hnames.1).1
    omega
  | cons arg rest ih =>
    have harg : args[k]? = some arg := by
      have hhead : (args.drop k)[0]? = args[k]? := by simp
      rw [← hhead, h, List.getElem?_cons_zero]
    have hrest : args.drop (k + 1) = rest := by
      rw [← List.tail_drop, h, List.tail_cons]
    rw [List.zipIdx_cons, List.foldl_cons]
    -- What comes later decides, and only where it names nothing does this position count.
    obtain ⟨i, r, hi, hlast, heq⟩ | ⟨hnone, heq⟩ := ih hrest (found.visit args (arg, k))
    · exact .inl ⟨i, r, Nat.le_of_succ_le hi, hlast, heq⟩
    · by_cases hnames : ∃ r, Names args k r
      · obtain ⟨r, hr⟩ := hnames
        have hlast : ∀ j s, Names args j s → j ≤ k := fun j s hs =>
          Nat.le_of_not_lt fun hlt => hnone j s hlt hs
        exact .inl ⟨k, r, Nat.le_refl k, ⟨hr, hlast⟩, heq.trans (options_visit_of_names hr harg)⟩
      · rw [not_exists] at hnames
        refine .inr ⟨fun i r hi => ?_, heq.trans (options_visit_of_not_names hnames harg)⟩
        rcases Nat.eq_or_lt_of_le hi with rfl | hlt
        · exact hnames r
        · exact hnone i r hlt

/-- The last flag that is followed by the name of a rounding counts. -/
theorem find_cases (args : List String) :
    (∃ i r, LastNames args i r ∧ (find args).options = ⟨r⟩) ∨
      (∀ i r, ¬ Names args i r) ∧ (find args).options = {} := by
  obtain ⟨i, r, -, hlast, heq⟩ | ⟨hnone, heq⟩ := Found.options_foldl (List.drop_zero) {}
  · exact .inl ⟨i, r, hlast, heq⟩
  · exact .inr ⟨fun i r => hnone i r (Nat.zero_le i), heq⟩

/-! ## What is left -/

/-- Whether the argument at a position is a flag or comes right after one. -/
def isTaken (args : List String) : Nat → Bool
  | 0 => args[0]? == some "--division_rounding"
  | i + 1 => args[i + 1]? == some "--division_rounding" || args[i]? == some "--division_rounding"

theorem mem_positions_find_iff_isTaken (hi : i < args.length) :
    i ∈ (find args).positions ↔ isTaken args i = true := by
  rw [mem_positions_find_iff]
  cases i <;> simp [isTaken, roundingFlag, hi]

theorem exists_of_mem_keep {p : Nat → Bool} {arg : String} (h : arg ∈ keep p args) :
    ∃ i, p i = true ∧ args[i]? = some arg := by
  obtain ⟨e, he, rfl⟩ := List.mem_map.1 h
  obtain ⟨hmem, hp⟩ := List.mem_filter.1 he
  exact ⟨e.2, hp, List.mem_zipIdx_iff_getElem?.1 hmem⟩

theorem keep_congr {p q : Nat → Bool} (h : ∀ i < args.length, p i = q i) :
    keep p args = keep q args := by
  refine congrArg (List.map Prod.fst) (List.filter_congr fun e he => h e.2 ?_)
  simpa using List.snd_lt_add_of_mem_zipIdx he

/-- A list without flags is left as it is. -/
theorem takeOptions?_of_not_mem (h : roundingFlag ∉ args) : takeOptions? args = some ({}, args) := by
  have hflag (i : Nat) : args[i]? ≠ some roundingFlag := fun hi => h (List.mem_of_getElem? hi)
  have hoptions : (find args).options = {} := by
    obtain ⟨i, r, hlast, -⟩ | ⟨-, heq⟩ := find_cases args
    · exact absurd (names_iff.1 hlast.1).1 (hflag i)
    · exact heq
  have hkeep : keep (fun i => decide (i ∉ (find args).positions)) args = args := by
    refine keep_of_forall fun i _ => decide_eq_true fun hi => ?_
    rcases (mem_positions_find_iff.1 hi).2 with hi | ⟨j, -, hj⟩
    · exact hflag i hi
    · exact hflag j hj
  rw [takeOptions?_eq, hoptions, hkeep]

theorem fromArgs_of_not_mem (h : roundingFlag ∉ args) : fromArgs args = ({}, args) := by
  simp [fromArgs, takeOptions?_of_not_mem h]

/-- What is read from an argument list, and what is left of it. -/
structure Consumes (args : List String) (opts : Options) (left : List String) : Prop where
  /-- There is nothing to be removed at a position out of range. -/
  out_of_range (xs : List String) (i : Nat) : removeAt? xs i = none ↔ xs.length ≤ i
  /-- Every position that is removed is in range. -/
  in_range : takeOptions? args = some (opts, left)
  left_eq : left = keep (fun i => !isTaken args i) args
  rounding : (∃ i r, LastNames args i r ∧ opts = { divisionRounding := r }) ∨
    (∀ i r, ¬ Names args i r) ∧ opts = { divisionRounding := .towardZero }
  again : fromArgs left = ({ divisionRounding := .towardZero }, left)

/-- Reading options removes the flags and the arguments after them, wherever they stand. The last
flag with a name after it counts, quotients are truncated where there is none, and there are no
options in what is left. -/
theorem fromArgs_consumes (args : List String) :
    Consumes args (fromArgs args).1 (fromArgs args).2 := by
  have hkeep : keep (fun i => decide (i ∉ (find args).positions)) args =
      keep (fun i => !isTaken args i) args :=
    keep_congr fun i hi => by
      rw [Bool.eq_iff_iff]
      simp [mem_positions_find_iff_isTaken hi]
  have hread : takeOptions? args =
      some ((find args).options, keep (fun i => !isTaken args i) args) := by
    rw [takeOptions?_eq, hkeep]
  have hfrom : fromArgs args = ((find args).options, keep (fun i => !isTaken args i) args) := by
    simp [fromArgs, hread]
  rw [hfrom]
  refine ⟨fun _ _ => removeAt?_eq_none_iff, hread, rfl, find_cases args,
    fromArgs_of_not_mem fun hflag => ?_⟩
  obtain ⟨i, hkept, hi⟩ := exists_of_mem_keep (p := fun i => !isTaken args i) hflag
  have htaken : isTaken args i = true := by
    cases i <;> simp [isTaken, roundingFlag, hi]
  rw [htaken] at hkept
  cases hkept

/-- The flag and the name after it are read, and what is around them is left. -/
theorem fromArgs_consumes_outward :
    fromArgs ["prog", "--division_rounding", "outward", "input"] =
      ({ divisionRounding := .outward }, ["prog", "input"]) := by
  obtain ⟨-, -, hleft, hrounding, -⟩ :=
    fromArgs_consumes ["prog", "--division_rounding", "outward", "input"]
  refine Prod.ext ?_ (hleft.trans (by decide))
  obtain ⟨i, r, ⟨⟨hflag, name, hname, hr⟩, -⟩, hopts⟩ | ⟨hnone, -⟩ := hrounding
  · match i with
    | 0 | 2 | 3 => exact absurd hflag (by decide)
    | 1 =>
      cases hr with
      | towardZero => exact absurd hname (by decide)
      | outward => exact hopts
  · exact absurd ⟨rfl, "outward", rfl, .outward⟩ (hnone 1 .outward)

/-- A flag that comes after another flag is taken twice, and a flag may be the last argument. -/
example : fromArgs ["--division_rounding", "--division_rounding", "outward", "input",
    "--division_rounding"] = ({ divisionRounding := .outward }, ["input"]) := by decide

end Options

end Overapprox
