import Overapprox.Proofs.State.Frame

/-!
# Calls leave the caller alone

A callee runs on the state of its caller with the caller's variables hidden, and does not read or
write anything that is hidden. So a hidden identifier is still known after each of its steps, joins
and widenings, and after a call of its own, which hides it once more and shows it again. When the
scope of the call is popped at last, the caller finds its variables as it left them.

* `Callee.run`: what a callee does to a state.
* `Callee.exists_run`: a callee runs through, and what was hidden is known as before.
* `State.scopes_isolate`: scopes undo each other, and calls leave the caller's variables alone.
-/

namespace Overapprox

open AbstractLattice

variable {opts : Options} {x y : Identifier} {v : Interval} {ts : InferredTypes}
  {token : ScopeToken}

/-! ## Callees -/

/-- The expression reads no identifier that is hidden by a call. -/
def SymExpr.ReadsNoHidden (e : SymExpr) : Prop :=
  ∀ y : Identifier, y.isHidden = true → e.mentions y = false

/-- What a callee does after it was entered. -/
inductive Callee where
  | entry
  | assign (c : Callee) (id : Identifier) (e : SymExpr)
  | step (c : Callee) (e : SymExpr)
  | assume (c : Callee) (e : SymExpr)
  | forget (c : Callee) (id : Identifier)
  /-- Two branches, or a loop, that both started at the entry. -/
  | join (c d : Callee)
  | widen (c d : Callee)
  /-- A call of its own, whose scope is popped after it. -/
  | call (c : Callee) (token : ScopeToken) (inner : Callee)

namespace Callee

/-- The state of a callee that was entered with `s`. -/
def run (opts : Options) : Callee → State SummaryHeap → Outcome (State SummaryHeap)
  | entry, s => return s
  | assign c id e, s => do (← c.run opts s).assign opts id e
  | step c e, s => do (← c.run opts s).step opts e
  | assume c e, s => do (← c.run opts s).assume opts e
  | forget c id, s => return (← c.run opts s).forget id
  | join c d, s => return AbstractLattice.join (← c.run opts s) (← d.run opts s)
  | widen c d, s => return AbstractLattice.widen (← c.run opts s) (← d.run opts s)
  | call c token inner, s => do
    let t ← inner.run opts ((← c.run opts s).pushScope token)
    return t.popScope token

/-- Neither the callee nor what it calls reads or writes an identifier that is hidden. -/
def VisibleOnly : Callee → Prop
  | entry => True
  | assign c id e => c.VisibleOnly ∧ id.isHidden = false ∧ e.ReadsNoHidden
  | step c e | assume c e => c.VisibleOnly ∧ e.ReadsNoHidden
  | forget c id => c.VisibleOnly ∧ id.isHidden = false
  | join c d | widen c d => c.VisibleOnly ∧ d.VisibleOnly
  | call c _ inner => c.VisibleOnly ∧ inner.VisibleOnly

end Callee

/-! ## Single steps -/

/-- A hidden variable is different from all that is visible inside the call. -/
theorem Identifier.compare_ne_of_isHidden (hy : y.isHidden = true) (hx : x.isHidden = false) :
    compare y x ≠ .eq := by
  intro heq
  rw [← isHidden_eq_of_beq (Std.LawfulBEqOrd.compare_eq_iff_beq.1 heq), hy] at hx
  cases hx

/-- What an expression may denote reads no hidden identifier that the expression does not read. -/
theorem Summary.mentions_of_isHidden {e : SymExpr} {choices : Choices} (he : e.ReadsNoHidden)
    (hy : y.isHidden = true) (h : rewriter.rewrite e = .ok choices) :
    ∀ c ∈ choices.toList, c.mentions y = false := by
  cases y with
  | outOfScope => exact mentions_of_rewrite rfl rfl (he _ hy) h
  | _ => cases hy

namespace Composite

variable {s t : Composite SummaryHeap}

/-- A join knows what both of its operands know. -/
theorem Knows.join (hs : s.Knows x v ts) (ht : t.Knows x v ts) : (join s t).Knows x v ts :=
  join_keeps (p := fun s : Composite SummaryHeap => s.Knows x v ts)
    (fun _ _ hs ht => ⟨hs.values.join ht.values, TypeEnv.retains_join hs.types ht.types⟩) hs ht

theorem Knows.widen (hs : s.Knows x v ts) (ht : t.Knows x v ts) : (widen s t).Knows x v ts :=
  widen_keeps (p := fun s : Composite SummaryHeap => s.Knows x v ts)
    (fun _ _ hs ht => ⟨hs.values.widen ht.values, TypeEnv.retains_widen hs.types ht.types⟩) hs ht

theorem Knows.forget (h : s.Knows y v ts) (hy : compare y x ≠ .eq) :
    (s.forget x).Knows y v ts :=
  ⟨h.values.forget hy, h.types.forget hy⟩

theorem Knows.pushScope (h : s.Knows x v ts) (token : ScopeToken) :
    (s.pushScope token).Knows (x.pushScope token) v ts :=
  ⟨h.values.pushScope token, h.types.pushScope token⟩

/-- After the return a variable is known as it was known under its hidden name. -/
theorem Knows.popScope (hx : x.isScoped = true) (h : s.Knows (x.pushScope token) v ts) :
    (s.popScope token).Knows x v ts :=
  ⟨h.values.popScope hx, h.types.popScope hx⟩

end Composite

namespace State

variable {s : State SummaryHeap} {id : Identifier} {e : SymExpr}

/-- An assignment to a visible target has a result, in which hidden variables are known as before.
-/
theorem exists_assign (opts : Options) (s : State SummaryHeap) (hid : id.isHidden = false)
    (e : SymExpr) :
    ∃ s', s.assign opts id e = .ok s' ∧ ∀ {y v ts}, y.isHidden = true →
      s.composite.Knows y v ts → s'.composite.Knows y v ts := by
  obtain ⟨choices, hrewrite⟩ := s.composite.exists_rewrite e
  have hassign : s.composite.assign opts id e = _ := Composite.assign_eq hrewrite
  refine ⟨_, by rw [assign, hassign]; rfl, fun hy hs => ?_⟩
  exact hs.assign (Identifier.compare_ne_of_isHidden hy hid) hassign

theorem exists_step (opts : Options) (s : State SummaryHeap) (e : SymExpr) :
    ∃ s', s.step opts e = .ok s' ∧ ∀ {y v ts},
      s.composite.Knows y v ts → s'.composite.Knows y v ts := by
  obtain ⟨choices, hrewrite⟩ := s.composite.exists_rewrite e
  have hstep : s.composite.step opts e = _ := Composite.step_eq hrewrite
  exact ⟨_, by rw [step, hstep]; rfl, fun hs => hs.step hstep⟩

/-- A condition that reads no hidden variable has a result, in which they are known as before. -/
theorem exists_assume (opts : Options) (s : State SummaryHeap) (he : e.ReadsNoHidden) :
    ∃ s', s.assume opts e = .ok s' ∧ ∀ {y v ts}, y.isHidden = true →
      s.composite.Knows y v ts → s'.composite.Knows y v ts := by
  obtain ⟨choices, hrewrite⟩ := s.composite.exists_rewrite e
  have hassume : s.composite.assume opts e = _ := Composite.assume_eq hrewrite
  refine ⟨_, by rw [assume, hassume]; rfl, fun hy hs => ?_⟩
  exact hs.assume hrewrite (Summary.mentions_of_isHidden he hy hrewrite) hassume

theorem knows_join {t : State SummaryHeap} (hs : s.composite.Knows x v ts)
    (ht : t.composite.Knows x v ts) : (join s t).composite.Knows x v ts :=
  join_keeps (p := fun s : State SummaryHeap => s.composite.Knows x v ts)
    (fun _ _ hs ht => hs.join ht) hs ht

theorem knows_widen {t : State SummaryHeap} (hs : s.composite.Knows x v ts)
    (ht : t.composite.Knows x v ts) : (widen s t).composite.Knows x v ts :=
  widen_keeps (p := fun s : State SummaryHeap => s.composite.Knows x v ts)
    (fun _ _ hs ht => hs.widen ht) hs ht

end State

/-! ## Whole runs -/

/-- A callee runs through whatever it was entered with, and what it was entered with is still known
of every hidden identifier. By induction on what the callee does; a call of its own is entered with
the identifier hidden once more. -/
theorem Callee.exists_run (opts : Options) {c : Callee} (h : c.VisibleOnly)
    (s : State SummaryHeap) :
    ∃ s', c.run opts s = .ok s' ∧ ∀ {y v ts}, y.isHidden = true →
      s.composite.Knows y v ts → s'.composite.Knows y v ts := by
  induction c generalizing s with
  | entry => exact ⟨s, rfl, fun _ hs => hs⟩
  | assign c id e ih =>
    obtain ⟨hc, hid, -⟩ := h
    obtain ⟨t, ht, hknows⟩ := ih hc s
    obtain ⟨s', hs', hstep⟩ := t.exists_assign opts hid e
    rw [run, ht]
    exact ⟨s', hs', fun hy hs => hstep hy (hknows hy hs)⟩
  | step c e ih =>
    obtain ⟨t, ht, hknows⟩ := ih h.1 s
    obtain ⟨s', hs', hstep⟩ := t.exists_step opts e
    rw [run, ht]
    exact ⟨s', hs', fun hy hs => hstep (hknows hy hs)⟩
  | assume c e ih =>
    obtain ⟨t, ht, hknows⟩ := ih h.1 s
    obtain ⟨s', hs', hstep⟩ := t.exists_assume opts h.2
    rw [run, ht]
    exact ⟨s', hs', fun hy hs => hstep hy (hknows hy hs)⟩
  | forget c id ih =>
    obtain ⟨t, ht, hknows⟩ := ih h.1 s
    rw [run, ht]
    refine ⟨t.forget id, rfl, fun hy hs => ?_⟩
    exact (hknows hy hs).forget (Identifier.compare_ne_of_isHidden hy h.2)
  | join c d ihc ihd =>
    obtain ⟨t, ht, hknowst⟩ := ihc h.1 s
    obtain ⟨u, hu, hknowsu⟩ := ihd h.2 s
    rw [run, ht, hu]
    exact ⟨_, rfl, fun hy hs => State.knows_join (hknowst hy hs) (hknowsu hy hs)⟩
  | widen c d ihc ihd =>
    obtain ⟨t, ht, hknowst⟩ := ihc h.1 s
    obtain ⟨u, hu, hknowsu⟩ := ihd h.2 s
    rw [run, ht, hu]
    exact ⟨_, rfl, fun hy hs => State.knows_widen (hknowst hy hs) (hknowsu hy hs)⟩
  | call c token inner ihc ihi =>
    obtain ⟨t, ht, hknowst⟩ := ihc h.1 s
    obtain ⟨u, hu, hknowsu⟩ := ihi h.2 (t.pushScope token)
    have hrun : (call c token inner).run opts s = .ok (u.popScope token) := by
      rw [run, ht]
      show (inner.run opts (t.pushScope token)).bind _ = _
      rw [hu]
      rfl
    refine ⟨_, hrun, fun hy hs => ?_⟩
    have hscoped := Identifier.isScoped_of_isHidden hy
    -- The inner call starts from a state that knows the identifier under one more scope, which is
    -- what its own pop takes off again.
    have hentered := (hknowst hy hs).pushScope token
    exact (hknowsu (Identifier.isHidden_pushScope hscoped) hentered).popScope hscoped

/-- A scope that is pushed and popped again leaves a state as it is, where its stack is a finite
set. Between the two a callee may run that does not touch what is hidden, with calls of its own that
may use the same token. It runs through, and when its scope is popped every variable and every
hidden identifier has the values and the types that it had at the call, unless nothing is left of
these components. -/
theorem State.scopes_isolate (opts : Options) (s : State SummaryHeap) (token : ScopeToken) :
    (s.stack ≠ .top → (s.pushScope token).popScope token = s) ∧
    ∀ c : Callee, c.VisibleOnly → ∃ s', c.run opts (s.pushScope token) = .ok s' ∧
      ∀ x, x.isScoped = true → (s'.popScope token).composite.Knows x
        (s.composite.values.get x) (s.composite.types.get x) := by
  refine ⟨fun hstack => State.popScope_pushScope hstack token, fun c hc => ?_⟩
  obtain ⟨s', hrun, hknows⟩ := Callee.exists_run opts hc (s.pushScope token)
  refine ⟨s', hrun, fun x hx => ?_⟩
  have hentered := (s.composite.knows_get x).pushScope token
  exact (hknows (Identifier.isHidden_pushScope hx) hentered).popScope hx

/-- The call of a procedure that writes to a variable of its own and then calls itself. -/
def recursiveCallee (token : ScopeToken) : Callee :=
  let write (c : Callee) : Callee := c.assign (intVar "x") (.const (.int 5) { type := .int32 })
  write (.call (write .entry) token (write .entry))

/-- Whatever the procedure makes of its own `x`, that of the caller is still 3. -/
theorem State.scopes_isolate_recursive :
    ∃ s s' : State SummaryHeap, (recursiveCallee ⟨.synthetic⟩).run {} (s.pushScope ⟨.synthetic⟩) =
        .ok s' ∧ (s.pushScope ⟨.synthetic⟩).popScope ⟨.synthetic⟩ = s ∧
      s.composite.values.get (intVar "x") = .singleton 3 ∧
      (s'.popScope ⟨.synthetic⟩).composite.values.get (intVar "x") = .singleton 3 := by
  obtain ⟨hundo, hcall⟩ :=
    scopes_isolate {} { composite := .binding (intVar "x") (.singleton 3) } ⟨.synthetic⟩
  have hreads (n : Int) : (SymExpr.const (.int n) { type := .int32 }).ReadsNoHidden :=
    fun _ _ => rfl
  obtain ⟨s', hrun, hknows⟩ := hcall (recursiveCallee ⟨.synthetic⟩)
    ⟨⟨⟨trivial, rfl, hreads 5⟩, ⟨trivial, rfl, hreads 5⟩⟩, rfl, hreads 5⟩
  refine ⟨_, s', hrun, hundo nofun, rfl, (hknows (intVar "x") rfl).values.get_eq ?_⟩
  cases hrun
  rfl

end Overapprox
