import SketchSolver.Proofs.Solve.Search

/-!
# Two runs side by side

A call on a group sees of a document what the document answers to it. If a relation of documents is
kept by all that a call does, and related documents give the same answers (`Bisimulation`), two
calls on related documents go the same way: what one finds the other one finds, and what they leave
is related (`coupled_solve`, `coupled_check`). The clocks of the two calls may differ, as long as
neither of them stops a search.

The runs are taken apart side by side. `Coupled` says that whenever two computations have results,
these are related, and it is proved step by step along the binds.
-/

namespace SketchSolver

/-- Whenever two computations have results, `Q` relates these. -/
def Coupled (Q : β → γ → Prop) (x : Except ε β) (y : Except ε γ) : Prop :=
  ∀ a b, x = .ok a → y = .ok b → Q a b

namespace Coupled

variable {ε : Type u} {β γ β' γ' : Type v} {Q : β → γ → Prop} {Q' : β' → γ' → Prop}
  {x : Except ε β} {y : Except ε γ}

/-- Results that are related make two computations coupled. -/
theorem ok {a : β} {b : γ} (h : Q a b) : Coupled Q (.ok a : Except ε β) (.ok b) := by
  rintro _ _ ⟨⟩ ⟨⟩
  exact h

/-- One computation has one result. -/
theorem same (x : Except ε β) : Coupled Eq x x := by
  intro a b ha hb
  exact Except.ok.inj (ha.symm.trans hb)

/-- Computations are coupled if they begin with coupled ones and go on alike from related
results. -/
theorem bind {f : β → Except ε β'} {f' : γ → Except ε γ'} (h : Coupled Q x y)
    (hf : ∀ a b, Q a b → Coupled Q' (f a) (f' b)) : Coupled Q' (x >>= f) (y >>= f') := by
  intro c d hc hd
  obtain ⟨a, ha, hc⟩ := bind_eq_ok.1 hc
  obtain ⟨b, hb, hd⟩ := bind_eq_ok.1 hd
  exact hf a b (h a b ha hb) c d hc hd

/-- Two computations that begin alike. -/
theorem bind_same {f f' : β → Except ε β'} {Q' : β' → β' → Prop} (x : Except ε β)
    (hf : ∀ a, Coupled Q' (f a) (f' a)) : Coupled Q' (x >>= f) (x >>= f') := by
  refine (same x).bind ?_
  rintro a _ rfl
  exact hf a

/-- What follows for related results holds of coupled computations. -/
theorem mono {Q' : β → γ → Prop} (h : Coupled Q x y) (hQ : ∀ a b, Q a b → Q' a b) :
    Coupled Q' x y :=
  fun a b ha hb => hQ a b (h a b ha hb)

end Coupled

/-- Documents that `R` relates answer a call on a group alike, and stay related by all that the call
does to both. -/
structure Bisimulation [Document δ α] (g : GroupHandle) (R : δ → δ → Prop) : Prop where
  policy : ∀ {d d'}, R d d' → Document.policy d' g = Document.policy d g
  equations : ∀ {d d'}, R d d' → ∀ except out,
    (Document.writeEquations d' g except out).1 = (Document.writeEquations d g except out).1
  written : ∀ {d d'}, R d d' → ∀ except out,
    R (Document.writeEquations d g except out).2 (Document.writeEquations d' g except out).2
  constraints : ∀ {d d'}, R d d' → Document.constraints d' g = Document.constraints d g
  hasConstraint : ∀ {d d' : δ}, R d d' → ∀ c,
    Document.hasConstraint d' c = Document.hasConstraint d c
  params : ∀ {d d'}, R d d' → Document.params d' g = Document.params d g
  paramValue? : ∀ {d d'}, R d d' → ∀ x, Document.paramValue? d' x = Document.paramValue? d x
  dragged : ∀ {d d' : δ}, R d d' → Document.dragged d' = Document.dragged d
  writeBack : ∀ {d d'}, R d d' → ∀ h x free,
    R (Document.writeBack d h x free) (Document.writeBack d' h x free)
  recordStatus : ∀ {d d'}, R d d' → ∀ status,
    R (Document.recordStatus d g status) (Document.recordStatus d' g status)

/-- Two outcomes are the same, but for the documents, which `R` relates. -/
structure Outcome.Related (R : δ → δ → Prop) (out out' : Outcome δ α) : Prop where
  result : out'.result = out.result
  system : out'.system = out.system
  writes : out'.writes = out.writes
  status : out'.status = out.status
  document : R out.document out'.document

/-- A search has not been stopped. -/
def Finished (search : Except SolverError ConflictSearch) : Prop :=
  ∀ found, search = .ok found → found.timedOut = false

/-- The search of a call, if there was one, has not been stopped. -/
def Outcome.Finished (out : Outcome δ α) : Prop :=
  ∀ report, out.result = .ok report → report.timedOut = false

/-- Two outcomes are related, unless a search has been stopped. -/
def Outcome.Agree (R : δ → δ → Prop) (out out' : Outcome δ α) : Prop :=
  out.Finished → out'.Finished → out.Related R out'

/-- What two calls have reported is the same, and what they leave is related. -/
theorem Outcome.Agree.report {R : δ → δ → Prop} {out out' : Outcome δ α} {report report' : Report}
    (h : Outcome.Agree R out out') (hreport : out.result = .ok report)
    (hreport' : out'.result = .ok report') (htime : report.timedOut = false)
    (htime' : report'.timedOut = false) : report' = report ∧ R out.document out'.document := by
  have hfinished : out.Finished := by
    intro r hr
    rwa [← Except.ok.inj (hreport.symm.trans hr)]
  have hfinished' : out'.Finished := by
    intro r hr
    rwa [← Except.ok.inj (hreport'.symm.trans hr)]
  have hrelated := h hfinished hfinished'
  exact ⟨Except.ok.inj (hreport'.symm.trans (hrelated.result.trans hreport)), hrelated.document⟩

namespace EquationSystem

section
variable [Scalar α] [Document δ α] {R : δ → δ → Prop} {g : GroupHandle} {d d' : δ}
  {s main trial : EquationSystem α} {policy : Policy} {options : SolveOptions}
  {watch watch' : Stopwatch} {independent : Bool}

/-! ## Loading -/

omit [Scalar α] in
/-- What is loaded from related documents is the same. -/
theorem load_related (hR : Bisimulation g R) (hd : R d d') (s : EquationSystem α)
    (except : Option ConstraintHandle) :
    (∃ e, s.load d g except = .error e ∧ s.load d' g except = .error e) ∨
    ∃ policy t d₁ d₁', s.load d g except = .ok (policy, t, d₁) ∧
      s.load d' g except = .ok (policy, t, d₁') ∧ R d₁ d₁' := by
  have hvalue : ∀ out x, Document.paramValue? (Document.writeEquations d' g except out).2 x =
      Document.paramValue? (Document.writeEquations d g except out).2 x := fun out =>
    hR.paramValue? (hR.written hd except out)
  unfold load captureForeign
  simp only [hR.policy hd, hR.params hd, hR.dragged hd, hR.equations hd, hvalue]
  cases Document.policy d g with
  | error e => exact .inl ⟨e, rfl, rfl⟩
  | ok policy => exact .inr ⟨policy, _, _, _, rfl, rfl, hR.written hd except _⟩

/-! ## Reports -/

/-- Related documents have the same constraints blamed. -/
theorem blamed_related (hR : Bisimulation g R) (hd : R d d') (s : EquationSystem α) :
    s.blamed d' = s.blamed d := by
  unfold blamed blame
  simp only [hR.hasConstraint hd]

/-- Failures of related documents have the same report. -/
theorem divergence_related (hR : Bisimulation g R) (hd : R d d') (s : EquationSystem α)
    (independent : Bool) : s.divergence d' independent = s.divergence d independent := by
  unfold divergence
  rw [blamed_related hR hd]

omit [Scalar α] in
/-- Values that are written back to related documents leave them related. -/
theorem applyWrites_related (hR : Bisimulation g R) : ∀ (writes : List (Write α)) {d d' : δ},
    R d d' → R (applyWrites d writes) (applyWrites d' writes)
  | [], _, _, hd => hd
  | _ :: rest, _, _, hd => applyWrites_related hR rest (hR.writeBack hd _ _ _)

omit [Scalar α] in
/-- Calls that end alike on related documents have related outcomes. -/
theorem conclude_related (hR : Bisimulation g R) (hd : R d d') (s : EquationSystem α)
    (report : Report) (writes : List (Write α)) :
    (s.conclude d g report writes).Related R (s.conclude d' g report writes) where
  result := rfl
  system := rfl
  writes := rfl
  status := rfl
  document := hR.recordStatus (applyWrites_related hR writes hd) _

/-! ## The search -/

/-- A trial does the same to related documents. -/
theorem coupled_independentWithout (hR : Bisimulation g R) (hd : R d d') (c : ConstraintHandle)
    (strict : Bool) :
    Coupled (fun r r' => r'.1 = r.1 ∧ r'.2.1 = r.2.1 ∧ R r.2.2 r'.2.2)
      (main.independentWithout trial d g c strict)
      (main.independentWithout trial d' g c strict) := by
  unfold independentWithout
  rcases load_related hR hd trial (some c) with
    ⟨e, hload, hload'⟩ | ⟨policy, t, d₁, d₁', hload, hload', hd₁⟩
  · rw [hload, hload']
    exact .ok ⟨rfl, rfl, hd⟩
  · rw [hload, hload']
    simp only
    generalize (if strict = true then (t.withValuesOf main).clearTags
      else (t.withValuesOf main).clearTags.substitute.2).linearize .live = linearized
    obtain ⟨written, t₁⟩ := linearized
    cases written with
    | false => exact .ok ⟨rfl, rfl, hd₁⟩
    | true => exact .bind_same _ fun _ => .ok ⟨rfl, rfl, hd₁⟩

/-- Two searches that have not been stopped have found the same. By induction on what is left to
try; the checks of the clock are counted alike in both. -/
theorem coupled_searchFrom (hR : Bisimulation g R) {strict : Bool} {deadline deadline' : Deadline} :
    ∀ (passes : List (ConstraintHandle × Bool)) (check : Nat) (found : ConflictSearch)
      (trial : EquationSystem α) {d d' : δ}, R d d' →
      Coupled (fun r r' => Finished r.1 → Finished r'.1 → r'.1 = r.1 ∧ R r.2 r'.2)
        (main.searchFrom g strict deadline check passes found trial d)
        (main.searchFrom g strict deadline' check passes found trial d')
  | [], _, _, _, _, _, hd => .ok fun _ _ => ⟨rfl, hd⟩
  | (c, tried) :: rest, check, found, trial, d, d', hd => by
    rw [searchFrom, searchFrom]
    cases deadline check with
    | true =>
      rintro _ _ ⟨⟩ _ hfinished _
      cases hfinished _ rfl
    | false =>
    cases deadline' check with
    | true =>
      rintro _ _ _ ⟨⟩ _ hfinished
      cases hfinished _ rfl
    | false =>
    cases tried with
    | false => exact coupled_searchFrom hR rest (check + 1) found trial hd
    | true =>
    refine (coupled_independentWithout hR hd c strict).bind ?_
    rintro ⟨verdict, trial₁, d₁⟩ ⟨verdict', trial₁', d₁'⟩ ⟨hverdict, htrial, hd₁⟩
    obtain rfl : verdict' = verdict := hverdict
    obtain rfl : trial₁' = trial₁ := htrial
    cases verdict' with
    | error e => exact .ok fun _ _ => ⟨rfl, hd₁⟩
    | ok independent => exact coupled_searchFrom hR rest (check + 1) _ _ hd₁

/-- Two searches for conflicts find the same, if neither is stopped. -/
theorem coupled_findConflicts (hR : Bisimulation g R) (hd : R d d') {strict : Bool}
    {deadline deadline' : Deadline} :
    Coupled (fun r r' => Finished r.1 → Finished r'.1 → r'.1 = r.1 ∧ R r.2 r'.2)
      (main.findConflicts d g strict deadline) (main.findConflicts d' g strict deadline') := by
  unfold findConflicts
  rw [hR.constraints hd]
  exact coupled_searchFrom hR _ 0 {} _ hd

omit [Scalar α] [Document δ α] in
/-- What follows two searches goes the same way, if its report tells whether the search was
stopped. -/
theorem coupled_afterSearch {k : ConflictSearch → δ → Except (Fault α) (Outcome δ α)}
    {search search' : Except SolverError ConflictSearch}
    (hk : ∀ found {d d'}, R d d' → Coupled (Outcome.Agree R) (k found d) (k found d'))
    (hstopped : ∀ {found d out}, k found d = .ok out → out.Finished → found.timedOut = false) :
    (Finished search → Finished search' → search' = search ∧ R d d') → Coupled (Outcome.Agree R)
      (match search with
        | .error e => .ok { result := .error e, system := s, document := d }
        | .ok found => k found d)
      (match search' with
        | .error e => .ok { result := .error e, system := s, document := d' }
        | .ok found => k found d') := by
  intro hsearch out out' hout hout' hfinished hfinished'
  have hleft : Finished search := by
    rintro found rfl
    exact hstopped hout hfinished
  have hright : Finished search' := by
    rintro found rfl
    exact hstopped hout' hfinished'
  obtain ⟨hsame, hd⟩ := hsearch hleft hright
  obtain rfl : search' = search := hsame
  cases search' with
  | error e =>
    cases hout
    cases hout'
    exact ⟨rfl, rfl, rfl, rfl, hd⟩
  | ok found => exact hk found hd out out' hout hout' hfinished hfinished'

/-! ## A solve -/

/-- Recovering and writing back do the same to related documents. -/
theorem coupled_recoverAndWrite (hR : Bisimulation g R) (hd : R d d') (report : Report) :
    Coupled (Outcome.Related R) (s.recoverAndWrite d g report independent)
      (s.recoverAndWrite d' g report independent) := by
  refine .bind_same _ fun r => ?_
  obtain ⟨recovered, s₁⟩ := r
  cases recovered with
  | error defining =>
    have hblame : blame d' report.bad defining = blame d report.bad defining := by
      unfold blame
      simp only [hR.hasConstraint hd]
    simp only [hblame]
    exact .ok (conclude_related hR hd s₁ _ _)
  | ok _ => exact .ok (conclude_related hR hd _ report _)

/-- Whatever is recovered, the report tells whether the search was stopped. -/
theorem timedOut_of_finished {report : Report} {out : Outcome δ α}
    (h : s.recoverAndWrite d g report independent = .ok out) (hout : out.Finished) :
    report.timedOut = false := by
  obtain ⟨_, _, rfl | ⟨_, rfl⟩⟩ := recoverAndWrite_cases h
  · exact hout report rfl
  · exact hout { report with result := .ofDiverged independent, bad := _ } rfl

/-- What comes after the iteration does the same to related documents, if neither search is
stopped. -/
theorem coupled_finish (hR : Bisimulation g R) (hd : R d d') :
    Coupled (Outcome.Agree R)
      (s.finish d g policy options watch independent)
      (s.finish d' g policy options watch' independent) := by
  have hrecover : ∀ (t : EquationSystem α) {d d' : δ} (report : Report), R d d' →
      Coupled (Outcome.Agree R)
        (t.recoverAndWrite d g report independent) (t.recoverAndWrite d' g report independent) :=
    fun t _ _ report hd => (coupled_recoverAndWrite hR hd report).mono fun _ _ h _ _ => h
  unfold finish
  cases independent with
  | true => exact .bind_same _ fun s₁ => hrecover s₁ _ hd
  | false =>
    simp only [Bool.false_eq_true, if_false]
    split
    · refine (coupled_findConflicts hR hd).bind ?_
      rintro ⟨search, d₁⟩ ⟨search', d₁'⟩ hsearch
      exact coupled_afterSearch
        (k := fun found d => s.recoverAndWrite d g
          { result := _, dof := s.dof, rank := s.rank, bad := found.bad,
            timedOut := found.timedOut } false)
        (fun _ => hrecover s _) timedOut_of_finished hsearch
    · exact hrecover s _ hd

/-- Two solves of one loaded system do the same, if neither search is stopped. -/
theorem coupled_solveLoaded (hR : Bisimulation g R) (hd : R d d') :
    Coupled (Outcome.Agree R)
      (s.solveLoaded d g policy options watch) (s.solveLoaded d' g policy options watch') := by
  have hconclude : ∀ (t : EquationSystem α) (report : Report),
      Coupled (Outcome.Agree R)
        (.ok (t.conclude d g report []) : Except (Fault α) (Outcome δ α))
        (.ok (t.conclude d' g report [])) :=
    fun t report => .ok fun _ _ => conclude_related hR hd t report []
  rw [solveLoaded_eq, solveLoaded_eq]
  simp only [divergence_related hR hd]
  refine .bind_same _ fun r => ?_
  obtain ⟨alone, s₁⟩ := r
  cases alone with
  | false => exact hconclude _ _
  | true =>
  simp only [Bool.not_true, Bool.false_eq_true, if_false]
  generalize s₁.eliminate.2.linearize .live = linearized
  obtain ⟨written, s₂⟩ := linearized
  cases written with
  | false => exact hconclude _ _
  | true =>
  simp only [Bool.not_true, Bool.false_eq_true, if_false]
  refine .bind_same _ fun r => .bind_same _ fun r' => ?_
  obtain ⟨converged, s₃⟩ := r'
  cases converged with
  | false => exact hconclude _ _
  | true => exact .bind_same _ fun _ => coupled_finish hR hd

/-- Two solves of related documents do the same, if neither search is stopped. -/
theorem coupled_solve (hR : Bisimulation g R) (hd : R d d') :
    Coupled (Outcome.Agree R)
      (s.solve d g options watch) (s.solve d' g options watch') := by
  unfold solve
  rcases load_related hR hd s none with
    ⟨e, hload, hload'⟩ | ⟨policy, t, d₁, d₁', hload, hload', hd₁⟩
  · rw [hload, hload']
    exact .ok fun _ _ => ⟨rfl, rfl, rfl, rfl, hd⟩
  · rw [hload, hload']
    exact coupled_solveLoaded hR hd₁

/-! ## A check -/

/-- Two checks of one loaded system do the same, if neither search is stopped. -/
theorem coupled_checkLoaded {findBad findFree : Bool} (hR : Bisimulation g R) (hd : R d d') :
    Coupled (Outcome.Agree R)
      (s.checkLoaded d g policy findBad findFree watch)
      (s.checkLoaded d' g policy findBad findFree watch') := by
  have hconclude : ∀ (t : EquationSystem α) {d d' : δ} (report : Report) (writes : List (Write α)),
      R d d' → Coupled (Outcome.Agree R)
        (.ok (t.conclude d g report writes) : Except (Fault α) (Outcome δ α))
        (.ok (t.conclude d' g report writes)) :=
    fun t _ _ report writes hd => .ok fun _ _ => conclude_related hR hd t report writes
  unfold checkLoaded
  generalize s.clearTags.linearize .live = linearized
  obtain ⟨written, s₁⟩ := linearized
  cases written with
  | false => exact hconclude _ _ _ hd
  | true =>
  refine .bind_same _ fun r => ?_
  obtain ⟨independent, s₂⟩ := r
  cases independent with
  | true => exact .bind_same _ fun _ => hconclude _ _ _ hd
  | false =>
    simp only [Bool.false_eq_true, if_false]
    split
    · refine (coupled_findConflicts hR hd).bind ?_
      rintro ⟨search, d₁⟩ ⟨search', d₁'⟩ hsearch
      refine coupled_afterSearch
        (k := fun found d => .ok (s₂.conclude d g
          { result := _, dof := s₂.dof, rank := s₂.rank, bad := found.bad,
            timedOut := found.timedOut } s₂.writes))
        (fun _ => hconclude s₂ _ _) ?_ hsearch
      rintro found d out ⟨⟩ hfinished
      exact hfinished _ rfl
    · exact hconclude _ _ _ hd

/-- Two checks of related documents do the same, if neither search is stopped. -/
theorem coupled_check {findBad findFree : Bool} (hR : Bisimulation g R) (hd : R d d') :
    Coupled (Outcome.Agree R)
      (s.check d g findBad findFree watch) (s.check d' g findBad findFree watch') := by
  unfold check
  rcases load_related hR hd s none with
    ⟨e, hload, hload'⟩ | ⟨policy, t, d₁, d₁', hload, hload', hd₁⟩
  · rw [hload, hload']
    exact .ok fun _ _ => ⟨rfl, rfl, rfl, rfl, hd⟩
  · rw [hload, hload']
    exact coupled_checkLoaded hR hd₁

end

end EquationSystem

end SketchSolver
