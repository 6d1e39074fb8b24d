import Overapprox.Proofs.Call.Aliases

/-!
# Aliases that are recorded one by one

An aliasing that recordings build from nothing knows the recorded pairs and no others. A symbol of
which nothing is recorded may stand for anything, but no alias is listed for it, so calls do not
match through it; its first alias takes the place of that. What a call matches therefore depends on
the set of the recordings alone.

* `SymbolAliasing.mem_aliases_addAlias`: what one recording adds.
* `SymbolAliasing.mem_aliases_ofRecords`: what is known after all recordings.
* `Call.matchesName_iff`: when a call names a member of a unit.
* `Call.matchesMember_ofRecords_iff`: when a call matches a member after all recordings.
-/

namespace Overapprox

open AbstractLattice

/-! ## Sets of alternatives -/

namespace Powerset

variable {α : Type} [Ord α] [Std.TransOrd α] [BEq α] {v : Powerset α} {a b : α}

theorem not_mem_of_isBottom (h : isBottom v = true) : a ∉ v.toList := by
  cases v with
  | top => cases h
  | finite s =>
    have hnil : s.toList = [] := List.isEmpty_iff.1 h
    intro ha
    change a ∈ s.toList at ha
    rw [hnil] at ha
    cases ha

theorem mem_toList_add [Std.LawfulEqOrd α] (h : isTop v = false) :
    a ∈ (v.add b).toList ↔ a = b ∨ a ∈ v.toList := by
  cases v with
  | top => cases h
  | finite s =>
    change a ∈ (s.insert b).toList ↔ a = b ∨ a ∈ s.toList
    simp only [← OrdSet.contains_iff_mem, OrdSet.contains_insert, Bool.or_eq_true, beq_iff_eq,
      Std.LawfulEqOrd.compare_eq_iff_eq]

end Powerset

/-! ## Recordings -/

namespace SymbolAliasing

variable {a : SymbolAliasing} {s t u other : Symbol} {rs : List (Symbol × Symbol)}

/-- Neither top nor bottom lists an alias, so the first alias that takes their place is added like
any later one. -/
theorem mem_aliases_addAlias_self :
    t ∈ ((a.addAlias s other).aliases s).toList ↔ t = other ∨ t ∈ (a.aliases s).toList := by
  have hget : (a.addAlias s other).aliases s =
      if isTop (a.aliases s) || isBottom (a.aliases s) then .singleton other
      else (a.aliases s).add other :=
    Pointwise.get_put_self _ _ _
  rw [hget]
  by_cases hfirst : (isTop (a.aliases s) || isBottom (a.aliases s)) = true
  · have hnone : t ∉ (a.aliases s).toList := by
      rcases Bool.or_eq_true_iff.1 hfirst with htop | hbottom
      · intro ht
        cases h : a.aliases s with
        | top => exact Powerset.not_mem_top (h ▸ ht)
        | finite => rw [h] at htop; cases htop
      · exact Powerset.not_mem_of_isBottom hbottom
    rw [if_pos hfirst, or_iff_left hnone]
    exact List.mem_singleton
  · rw [if_neg hfirst]
    rw [Bool.or_eq_true, not_or, Bool.not_eq_true] at hfirst
    exact Powerset.mem_toList_add hfirst.1

/-- A recording in a bottom aliasing keeps nothing else, but there no alias is listed anyway. -/
theorem mem_aliases_addAlias_of_ne (hu : u ≠ s) :
    t ∈ ((a.addAlias s other).aliases u).toList ↔ t ∈ (a.aliases u).toList := by
  by_cases hbottom : a.function = .bottom
  · have hbefore : a.aliases u = AbstractLattice.bottom := by
      rw [aliases, hbottom]
      rfl
    have hafter : (a.addAlias s other).aliases u = .top := by
      have hne : compare u s ≠ .eq := fun h => hu (Std.LawfulEqOrd.eq_of_compare h)
      simp only [addAlias, aliases, hbottom, Pointwise.put, Pointwise.get, Pointwise.bindings,
        OrdMap.find?_insert_of_ne _ _ hne]
      rfl
    rw [hbefore, hafter]
    exact iff_of_false Powerset.not_mem_top (Powerset.not_mem_of_isBottom rfl)
  · rw [aliases_addAlias_of_ne other hu hbottom]

/-- A recording adds its alias to those of its symbol, and changes nothing else. -/
theorem mem_aliases_addAlias : t ∈ ((a.addAlias s other).aliases u).toList ↔
    (u, t) = (s, other) ∨ t ∈ (a.aliases u).toList := by
  by_cases hu : u = s
  · subst hu
    rw [mem_aliases_addAlias_self, Prod.mk.injEq, and_iff_right rfl]
  · rw [mem_aliases_addAlias_of_ne hu, Prod.mk.injEq, or_iff_right fun h => hu h.1]

/-- The aliasing that recordings, each of a symbol and an alias of it, build from nothing. -/
def ofRecords (rs : List (Symbol × Symbol)) : SymbolAliasing :=
  rs.foldl (fun a r => a.addAlias r.1 r.2) ∅

/-- After a fold of recordings the recorded aliases are known, and those from before. -/
theorem mem_aliases_foldl_addAlias :
    t ∈ ((rs.foldl (fun a r => a.addAlias r.1 r.2) a).aliases u).toList ↔
      (u, t) ∈ rs ∨ t ∈ (a.aliases u).toList := by
  induction rs generalizing a with
  | nil => simp
  | cons r rs ih =>
    rw [List.foldl_cons, ih, mem_aliases_addAlias, List.mem_cons, or_assoc, or_left_comm]

/-- The aliases that are known are those that were recorded. -/
theorem mem_aliases_ofRecords : t ∈ ((ofRecords rs).aliases u).toList ↔ (u, t) ∈ rs := by
  have hnone : t ∉ ((∅ : SymbolAliasing).aliases u).toList := Powerset.not_mem_top
  rw [ofRecords, mem_aliases_foldl_addAlias, or_iff_left hnone]

end SymbolAliasing

/-! ## Matches -/

namespace Call

variable {c : Call} {q n : String} {rs : List (Symbol × Symbol)}

/-- A call names the member of a unit: it has the name of its target, and the call has no qualifier,
a blank one, or that of the unit. -/
def Names (c : Call) (q n : String) : Prop :=
  n = c.target ∧ (c.qualifier = none ∨
    ∃ own, c.qualifier = some own ∧ (Text.isBlank own = true ∨ own = q))

/-- A blank qualifier counts as none, and then the unit does not matter. -/
theorem matchesName_iff : c.matchesName q n = true ↔ c.Names q n := by
  rw [matchesName, Bool.and_eq_true, beq_iff_eq, Names]
  refine and_congr_right fun _ => ?_
  unfold unit?
  cases c.qualifier with
  | none => simp
  | some own =>
    cases hblank : Text.isBlank own with
    | true => simp [hblank]
    | false => simp [hblank]

theorem reaches_ofRecords_iff {s : Symbol} : c.Reaches q n (.ofRecords rs) s ↔
    ∃ t, (s, t) ∈ rs ∧ c.matchesThrough q n s t = true :=
  exists_congr fun _ => and_congr_left' SymbolAliasing.mem_aliases_ofRecords

theorem reaches_qualifiedName_iff : c.Reaches q n (.ofRecords rs) (.qualifiedName q n) ↔
    ∃ q' n', (.qualifiedName q n, .qualifiedName q' n') ∈ rs ∧ c.Names q' n' := by
  simp only [reaches_ofRecords_iff, ← matchesName_iff]
  constructor
  · rintro ⟨t, ht, hmatch⟩
    cases t with
    | qualifiedName q' n' => exact ⟨q', n', ht, hmatch⟩
    | name | qualifier => cases hmatch
  · rintro ⟨q', n', ht, hmatch⟩
    exact ⟨.qualifiedName q' n', ht, hmatch⟩

theorem reaches_qualifier_iff : c.Reaches q n (.ofRecords rs) (.qualifier q) ↔
    ∃ q', (.qualifier q, .qualifier q') ∈ rs ∧ c.Names q' n := by
  simp only [reaches_ofRecords_iff, ← matchesName_iff]
  constructor
  · rintro ⟨t, ht, hmatch⟩
    cases t with
    | qualifier q' => exact ⟨q', ht, hmatch⟩
    | name | qualifiedName => cases hmatch
  · rintro ⟨q', ht, hmatch⟩
    exact ⟨.qualifier q', ht, hmatch⟩

theorem reaches_name_iff : c.Reaches q n (.ofRecords rs) (.name n) ↔
    ∃ n', (.name n, .name n') ∈ rs ∧ c.Names q n' := by
  simp only [reaches_ofRecords_iff, ← matchesName_iff]
  constructor
  · rintro ⟨t, ht, hmatch⟩
    cases t with
    | name n' => exact ⟨n', ht, hmatch⟩
    | qualifier | qualifiedName => cases hmatch
  · rintro ⟨n', ht, hmatch⟩
    exact ⟨.name n', ht, hmatch⟩

/-- Further recordings, before or after the others, only add matches. -/
theorem matchesMember_ofRecords_mono {rs' : List (Symbol × Symbol)} (hsub : rs ⊆ rs')
    (h : c.matchesMember q n (.ofRecords rs) = true) :
    c.matchesMember q n (.ofRecords rs') = true := by
  simp only [matchesMember_iff, reaches_ofRecords_iff] at h ⊢
  refine h.imp_right ?_
  rintro ⟨s, hs, t, ht, hmatch⟩
  exact ⟨s, hs, t, hsub ht, hmatch⟩

/-- After some recordings a call matches the members that it names itself, and those that it names
through a recording of their qualified name, of their unit or of their name, each with an alias of
the same kind. In which order and how often something is recorded makes no difference, and no
recording removes a match. -/
theorem matchesMember_ofRecords_iff (c : Call) (q n : String) (rs : List (Symbol × Symbol)) :
    (c.matchesMember q n (.ofRecords rs) = true ↔
      c.Names q n ∨
      (∃ q' n', (.qualifiedName q n, .qualifiedName q' n') ∈ rs ∧ c.Names q' n') ∨
      (∃ q', (.qualifier q, .qualifier q') ∈ rs ∧ c.Names q' n) ∨
      ∃ n', (.name n, .name n') ∈ rs ∧ c.Names q n') ∧
    (∀ rs', (∀ r, r ∈ rs ↔ r ∈ rs') →
      c.matchesMember q n (.ofRecords rs) = c.matchesMember q n (.ofRecords rs')) ∧
    (∀ rs', rs ⊆ rs' → c.matchesMember q n (.ofRecords rs) = true →
      c.matchesMember q n (.ofRecords rs') = true) := by
  refine ⟨?_, fun rs' hsame => ?_, fun rs' hsub => matchesMember_ofRecords_mono hsub⟩
  · rw [matchesMember_iff, matchesName_iff, ← reaches_qualifiedName_iff, ← reaches_qualifier_iff,
      ← reaches_name_iff]
    simp only [Symbol.ofMember, List.mem_cons, List.not_mem_nil, or_false, exists_eq_or_imp,
      exists_eq_left]
  · have hsub : rs ⊆ rs' := fun r hr => (hsame r).1 hr
    have hsub' : rs' ⊆ rs := fun r hr => (hsame r).2 hr
    rw [Bool.eq_iff_iff]
    exact ⟨matchesMember_ofRecords_mono hsub, matchesMember_ofRecords_mono hsub'⟩

/-- A call of `util::answer`. -/
def answer : Call := { location := .synthetic, qualifier := some "util", target := "answer" }

/-- A call of `answer` with a blank qualifier, which counts as none. -/
def blankAnswer : Call := { location := .synthetic, qualifier := some " \t", target := "answer" }

/-- The unit `util` may be used in the place of `lib`. -/
def utilForLib : Symbol × Symbol := (.qualifier "lib", .qualifier "util")

/-- An alias of another kind than the symbol, through which no call matches. -/
def utilForAnswer : Symbol × Symbol := (.name "answer", .qualifier "util")

/-- The call of `util::answer` matches `lib::answer`, also when an alias of another kind is recorded
before that of the unit and again after it. It does not match `other::answer`, which a call with a
blank qualifier does. -/
theorem matchesMember_ofRecords_iff_of_unit :
    answer.matchesMember "lib" "answer" (.ofRecords [utilForLib]) = true ∧
      answer.matchesMember "lib" "answer" (.ofRecords [utilForLib, utilForAnswer]) =
        answer.matchesMember "lib" "answer"
          (.ofRecords [utilForAnswer, utilForLib, utilForAnswer]) ∧
      answer.matchesMember "lib" "answer" (.ofRecords [utilForLib, utilForAnswer]) = true ∧
      answer.matchesMember "other" "answer" (.ofRecords [utilForLib]) = false ∧
      blankAnswer.matchesMember "other" "answer" (.ofRecords [utilForLib]) = true := by
  have hmatch : answer.matchesMember "lib" "answer" (.ofRecords [utilForLib]) = true := by
    refine (matchesMember_ofRecords_iff answer "lib" "answer" _).1.2 ?_
    exact .inr (.inr (.inl ⟨"util", List.mem_cons_self, rfl, .inr ⟨"util", rfl, .inr rfl⟩⟩))
  refine ⟨hmatch, ?_, ?_, ?_, ?_⟩
  · exact (matchesMember_ofRecords_iff answer "lib" "answer" _).2.1 _ (by simp [or_comm])
  · exact (matchesMember_ofRecords_iff answer "lib" "answer" _).2.2 _ (by simp) hmatch
  · rw [Bool.eq_false_iff, ne_eq, (matchesMember_ofRecords_iff answer "other" "answer" _).1]
    have hother : ¬answer.Names "other" "answer" := by
      rintro ⟨-, hnone | ⟨own, hown, hblank | hname⟩⟩
      · cases hnone
      · cases hown
        revert hblank
        decide
      · cases hown
        revert hname
        decide
    rintro (hname | ⟨q', n', hmem, -⟩ | ⟨q', hmem, -⟩ | ⟨n', hmem, -⟩)
    · exact hother hname
    all_goals simp [utilForLib] at hmem
  · refine (matchesMember_ofRecords_iff blankAnswer "other" "answer" _).1.2 (.inl ⟨rfl, .inr ?_⟩)
    exact ⟨" \t", rfl, .inl (by decide)⟩

end Call

end Overapprox
