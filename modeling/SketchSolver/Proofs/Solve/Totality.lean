import SketchSolver.Proofs.EquationSystem.Totality
import SketchSolver.Proofs.Solve.Completion

/-!
# Every call has an outcome

A solve and a check of any group of any document come to an outcome (`solve_total`). No law is asked
of the document: handles may be shared or owned by nobody, and expressions may be written with any
positions. The passes have results one by one, so what is left is that each of them leaves to the
next what that one needs: a record that can be recovered, and a linearization that points to
unknowns only.
-/

namespace SketchSolver.EquationSystem

section
variable [Scalar α] {s : EquationSystem α}

omit [Scalar α] in
/-- Substitution leaves the record as it was. -/
theorem elimination_substitute (s : EquationSystem α) :
    s.substitute.2.elimination = s.elimination := by
  unfold substitute
  split <;> rfl

/-- The rank can be tested, or left untested, and the linearization keeps its form. -/
theorem Resolved.yields_testRankUnless (hs : s.Resolved) (skip : Bool) :
    Yields (s.testRankUnless skip) fun r =>
      Frame Anything s r.2 ∧ s.linearization.SameForm r.2.linearization := by
  unfold testRankUnless
  split
  · exact .ok ⟨.refl Anything s, rfl, rfl, rfl, rfl⟩
  · exact hs.yields_testRank

variable [Document δ α] {doc : δ} {g : GroupHandle} {policy : Policy} {options : SolveOptions}
  {watch : Stopwatch} {report : Report} {independent : Bool}

/-! ## The search -/

/-- A trial has a result, even where it is refused a policy. -/
theorem yields_independentWithout (main trial : EquationSystem α) (doc : δ) (g : GroupHandle)
    (c : ConstraintHandle) (strict : Bool) :
    Yields (main.independentWithout trial doc g c strict) fun _ => True := by
  unfold independentWithout
  cases trial.load doc g (some c) with
  | error _ => exact .ok trivial
  | ok loaded =>
    obtain ⟨policy, t, doc'⟩ := loaded
    simp only
    generalize (if strict = true then (t.withValuesOf main).clearTags
      else (t.withValuesOf main).clearTags.substitute.2) = t₁
    have ht := t₁.resolved_linearize .live
    generalize t₁.linearize .live = out at ht ⊢
    obtain ⟨written, t₂⟩ := out
    cases written with
    | false => exact .ok trivial
    | true => exact ht.yields_evalJacobian.bind fun _ _ => .ok trivial

/-- A search has a result from any point on. By induction on what is left to try. -/
theorem yields_searchFrom (main : EquationSystem α) (g : GroupHandle) (strict : Bool)
    (deadline : Deadline) : ∀ (passes : List (ConstraintHandle × Bool)) (check : Nat)
      (found : ConflictSearch) (trial : EquationSystem α) (doc : δ),
      Yields (main.searchFrom g strict deadline check passes found trial doc) fun _ => True
  | [], _, _, _, _ => .ok trivial
  | (c, tried) :: rest, check, found, trial, doc => by
    rw [searchFrom]
    split
    · exact .ok trivial
    · split
      · exact yields_searchFrom main g strict deadline rest (check + 1) found trial doc
      · refine (main.yields_independentWithout trial doc g c strict).bind fun r _ => ?_
        obtain ⟨verdict, trial, doc⟩ := r
        cases verdict with
        | error _ => exact .ok trivial
        | ok independent =>
          exact yields_searchFrom main g strict deadline rest (check + 1) _ trial doc

/-- A search for conflicts has a result. -/
theorem yields_findConflicts (main : EquationSystem α) (doc : δ) (g : GroupHandle) (strict : Bool)
    (deadline : Deadline) :
    Yields (main.findConflicts doc g strict deadline) fun _ => True :=
  yields_searchFrom main g strict deadline _ 0 _ _ doc

/-! ## A solve -/

/-- Recovering and writing back have a result if the record is recoverable. -/
theorem Recoverable.yields_recoverAndWrite (hs : s.Recoverable) :
    Yields (s.recoverAndWrite doc g report independent) fun _ => True := by
  have hcopied := hs.frame s.frame_copySubstituted
  refine hcopied.yields_recover.bind fun r _ => ?_
  obtain ⟨recovered, t⟩ := r
  cases recovered with
  | error _ | ok _ => exact .ok trivial

/-- What comes after the iteration has a result if the record is recoverable. -/
theorem Recoverable.yields_finish (hs : s.Recoverable) :
    Yields (s.finish doc g policy options watch independent) fun _ => True := by
  unfold finish
  cases independent with
  | true =>
    exact (s.yields_markFree options.findFree).bind fun _ hframe =>
      (hs.frame hframe).yields_recoverAndWrite
  | false =>
    simp only [Bool.false_eq_true, if_false]
    split
    · refine (s.yields_findConflicts doc g options.strict _).bind fun r _ => ?_
      obtain ⟨search, doc'⟩ := r
      cases search with
      | error _ => exact .ok trivial
      | ok found => exact hs.yields_recoverAndWrite
    · exact hs.yields_recoverAndWrite

/-- A solve of any system that has been loaded has a result. -/
theorem yields_solveLoaded (s : EquationSystem α) (doc : δ) (g : GroupHandle) (policy : Policy)
    (options : SolveOptions) (watch : Stopwatch) :
    Yields (s.solveLoaded doc g policy options watch) fun _ => True := by
  rw [solveLoaded_eq]
  simp only
  have hstart : (if (policy.suppressDof || policy.allowRedundant || !options.strict) = true then
      s.clearTags.substitute.2 else s.clearTags).elimination = [] := by
    split
    · exact s.clearTags.elimination_substitute
    · rfl
  generalize (if (policy.suppressDof || policy.allowRedundant || !options.strict) = true then
    s.clearTags.substitute.2 else s.clearTags) = s₀ at hstart ⊢
  refine s₀.yields_solveSingletons.bind fun r ⟨_, helim⟩ => ?_
  obtain ⟨alone, s₁⟩ := r
  cases alone with
  | false => exact .ok trivial
  | true =>
  -- The record is made here, and no equation is rewritten after this.
  have hrecord : s₁.eliminate.2.Recoverable := recoverable_eliminate (helim.trans hstart)
  have hresolved := s₁.eliminate.2.resolved_linearize .live
  have hframe := (s₁.eliminate.2.linearize_spec Anything .live).1
  simp only [Bool.not_true, Bool.false_eq_true, if_false]
  generalize s₁.eliminate.2.linearize .live = out at hresolved hframe ⊢
  obtain ⟨written, s₂⟩ := out
  cases written with
  | false => exact .ok trivial
  | true =>
  simp only [Bool.not_true, Bool.false_eq_true, if_false] at hresolved hframe ⊢
  have hreset : Frame Anything s₂ { s₂ with rank := none, dof := -1 } :=
    .of_eq rfl rfl rfl rfl rfl rfl
  have hresolved₂ := hresolved.frame hreset ⟨rfl, rfl, rfl, rfl⟩
  refine (hresolved₂.yields_testRankUnless _).bind fun r ⟨hframe₃, hform₃⟩ => ?_
  obtain ⟨independent, s₃⟩ := r
  have hresolved₃ := hresolved₂.frame hframe₃ hform₃
  refine hresolved₃.yields_newton.bind fun r ⟨hframe₄, hform₄⟩ => ?_
  obtain ⟨converged, s₄⟩ := r
  cases converged with
  | false => exact .ok trivial
  | true =>
  refine ((hresolved₃.frame hframe₄ hform₄).yields_testRankUnless _).bind
    fun r ⟨hframe₅, _⟩ => ?_
  have hall : Frame Anything s₁.eliminate.2 r.2 :=
    (((hframe.trans hreset).trans hframe₃).trans hframe₄).trans hframe₅
  exact (hrecord.frame hall).yields_finish

/-- A solve has a result, even where it is refused a policy. -/
theorem yields_solve (s : EquationSystem α) (doc : δ) (g : GroupHandle) (options : SolveOptions)
    (watch : Stopwatch) : Yields (s.solve doc g options watch) fun _ => True := by
  unfold solve
  cases s.load doc g none with
  | error _ => exact .ok trivial
  | ok loaded => exact yields_solveLoaded _ _ _ _ _ _

/-! ## A check -/

/-- A check of any system that has been loaded has a result. -/
theorem yields_checkLoaded (s : EquationSystem α) (doc : δ) (g : GroupHandle) (policy : Policy)
    (findBad findFree : Bool) (watch : Stopwatch) :
    Yields (s.checkLoaded doc g policy findBad findFree watch) fun _ => True := by
  unfold checkLoaded
  have hresolved := s.clearTags.resolved_linearize .live
  generalize s.clearTags.linearize .live = out at hresolved ⊢
  obtain ⟨written, t⟩ := out
  cases written with
  | false => exact .ok trivial
  | true =>
  refine hresolved.yields_testRank.bind fun r _ => ?_
  obtain ⟨independent, t₁⟩ := r
  cases independent with
  | true => exact (t₁.yields_markFree findFree).bind fun _ _ => .ok trivial
  | false =>
    simp only [Bool.false_eq_true, if_false]
    split
    · refine (t₁.yields_findConflicts doc g true _).bind fun r _ => ?_
      obtain ⟨search, doc'⟩ := r
      cases search with
      | error _ | ok _ => exact .ok trivial
    · exact .ok trivial

/-- A check has a result, even where it is refused a policy. -/
theorem yields_check (s : EquationSystem α) (doc : δ) (g : GroupHandle) (findBad findFree : Bool)
    (watch : Stopwatch) : Yields (s.check doc g findBad findFree watch) fun _ => True := by
  unfold check
  cases s.load doc g none with
  | error _ => exact .ok trivial
  | ok loaded => exact yields_checkLoaded _ _ _ _ _ _ _

/-! ## Both -/

/-- A solve and a check have an outcome, of whatever document and with whatever flags, so no
equation is isolated that cannot be and nothing is evaluated outside of the table. What the passes
read without asking is there: the unknown that an equation refers to exactly, the positions in the
form of an expression that is evaluated, and all that a linearization points to. And elimination,
which goes on for as long as it finds something, ends by itself. -/
theorem solve_total (s : EquationSystem α) (doc : δ) (g : GroupHandle) (options : SolveOptions)
    (findBad findFree : Bool) (watch : Stopwatch) :
    (∃ out, s.solve doc g options watch = .ok out) ∧
      (∃ out, s.check doc g findBad findFree watch = .ok out) ∧
      ∀ t : EquationSystem α,
        (∀ (e : Expr α) h, e.referenced t.isUnknown = .exactly h →
          ∃ i p, t.position? h = some i ∧ t.params[i]? = some p) ∧
        (∀ e, (t.slotForm e).slotsBelow t.params.length = true) ∧
        (∀ sel, t.InRange (t.linearize sel).2.linearization) ∧
        ∀ fuel, t.params.length < fuel →
          eliminateRounds t.references fuel firstRound t = t.eliminate := by
  obtain ⟨solved, hsolve, _⟩ := s.yields_solve doc g options watch
  obtain ⟨checked, hcheck, _⟩ := s.yields_check doc g findBad findFree watch
  refine ⟨⟨solved, hsolve⟩, ⟨checked, hcheck⟩, fun t => ⟨fun e h he => ?_, t.slotsBelow_slotForm,
    t.inRange_linearize, fun fuel hfuel => ?_⟩⟩
  · exact exists_of_referenced he
  · exact eliminateRounds_congr t.references fuel (t.params.length + 1) firstRound t
      (Nat.lt_add_right _ hfuel) (by omega)

end

end SketchSolver.EquationSystem
