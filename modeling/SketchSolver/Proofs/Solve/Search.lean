import SketchSolver.Proofs.Solve.Completion
import SketchSolver.Proofs.Solve.Conflicts

/-!
# The search of a solve

A solve that finds redundant equations looks for conflicts at the point where its iteration has been
accepted, and recovers eliminated and substituted unknowns after that (`solve_redundant`). So the
trials of the search have the values that these unknowns had before the solve.

Whatever handles the unknowns have, a solve writes back one value for each of them, since no pass
adds an unknown, drops one or gives it another handle (`sameUnknowns_accepted`).
-/

namespace SketchSolver.EquationSystem

section
variable [Scalar α] {s s' : EquationSystem α} {policy : Policy} {options : SolveOptions}

/-! ## Unknowns -/

omit [Scalar α] in
/-- Clearing the tags leaves the unknowns and the settings. -/
theorem sameUnknowns_clearTags (s : EquationSystem α) : SameUnknowns s s.clearTags :=
  ⟨rfl, by simp [clearTags, Function.comp_def]⟩

omit [Scalar α] in
/-- Substitution leaves the unknowns and the settings. -/
theorem sameUnknowns_substitute (s : EquationSystem α) : SameUnknowns s s.substitute.2 :=
  ⟨by rw [substitute_eq], s.handles_substitute⟩

/-- A round of elimination leaves the unknowns and the settings. -/
theorem sameUnknowns_eliminationRound (g : ReferenceGraph) (round : Nat) (s : EquationSystem α) :
    SameUnknowns s (eliminationRound g round s).2 := by
  have hfold : ∀ (positions : List Nat) (found : EliminationRound) (s : EquationSystem α),
      SameUnknowns s (positions.foldl (eliminateAt g round) (found, s)).2 := by
    intro positions
    induction positions with
    | nil => exact fun _ s => .refl s
    | cons i rest ih =>
      intro found s
      rw [List.foldl_cons]
      rcases eliminateAt_cases g round found s i with hsame | ⟨h, k, _, hstep⟩
      · rw [hsame]
        exact ih found s
      · rw [hstep]
        have hclaim : SameUnknowns s (s.claim round i k) :=
          ⟨rfl, handles_updateParam fun _ => rfl⟩
        exact hclaim.trans (ih _ _)
  exact hfold _ [] s

/-- However many rounds of elimination there are, they leave the unknowns and the settings. -/
theorem sameUnknowns_eliminateRounds (g : ReferenceGraph) :
    ∀ (fuel round : Nat) (s : EquationSystem α), SameUnknowns s (eliminateRounds g fuel round s).2
  | 0, _, s => .refl s
  | fuel + 1, round, s => by
    have hround := sameUnknowns_eliminationRound g round s
    rw [eliminateRounds]
    generalize eliminationRound g round s = out at hround ⊢
    obtain ⟨found, t⟩ := out
    simp only at hround ⊢
    split
    · exact hround
    · have hrecord : SameUnknowns t { t with elimination := found :: t.elimination } := ⟨rfl, rfl⟩
      exact (hround.trans hrecord).trans (sameUnknowns_eliminateRounds g fuel (round + 1) _)

/-- Recovering gives values to unknowns and changes nothing else. -/
theorem frame_recoverFrom {entries : List (ParamHandle × Nat)}
    {recovered : Except EquationHandle Unit} (h : recoverFrom entries s = .ok (recovered, s')) :
    Frame Anything s s' := by
  have hassign : ∀ (t : EquationSystem α) i x,
      Frame Anything s t → Frame Anything s (t.assign i x) :=
    fun t i x ht => ht.trans
      (.updateParam fun _ _ => ⟨rfl, rfl, rfl, rfl, fun hm => absurd trivial hm⟩)
  exact (recoverFrom_invariant hassign (.refl Anything s) h).1

/-- The main iteration accepts a system of the unknowns that it has been given. -/
theorem sameUnknowns_accepted (h : s.accepted policy options = .ok (some s')) :
    SameUnknowns s s' := by
  unfold accepted at h
  have hcleared := s.sameUnknowns_clearTags
  have hsubstituted : SameUnknowns s (if (policy.suppressDof || policy.allowRedundant ||
      !options.strict) = true then s.clearTags.substitute.2 else s.clearTags) := by
    split
    · exact hcleared.trans s.clearTags.sameUnknowns_substitute
    · exact hcleared
  simp only at h
  generalize (if (policy.suppressDof || policy.allowRedundant || !options.strict) = true then
    s.clearTags.substitute.2 else s.clearTags) = s₀ at h hsubstituted
  obtain ⟨⟨alone, s₁⟩, halone, h⟩ := bind_eq_ok.1 h
  obtain ⟨_, halone', hsame₁, _⟩ := s₀.yields_solveSingletons
  obtain rfl := Except.ok.inj (halone'.symm.trans halone)
  cases alone with
  | false => cases h
  | true =>
  have hsame₂ : SameUnknowns s₁ s₁.eliminate.2 := sameUnknowns_eliminateRounds _ _ _ s₁
  obtain ⟨hlinearize, _⟩ := s₁.eliminate.2.linearize_spec Anything .live
  have hresolved := s₁.eliminate.2.resolved_linearize .live
  simp only [Bool.not_true, Bool.false_eq_true, if_false] at h
  generalize s₁.eliminate.2.linearize .live = out at h hlinearize hresolved
  obtain ⟨written, s₂⟩ := out
  cases written with
  | false => cases h
  | true =>
  simp only [Bool.not_true, Bool.false_eq_true, if_false] at h hlinearize hresolved
  have hreset : Frame Anything s₂ { s₂ with rank := none, dof := -1 } :=
    .of_eq rfl rfl rfl rfl rfl rfl
  obtain ⟨⟨independent, s₃⟩, hrank, h⟩ := bind_eq_ok.1 h
  obtain ⟨hframe₃, hform₃, _⟩ := testRankUnless_eq_ok Anything hrank
  have hresolved₃ := (hresolved.frame hreset ⟨rfl, rfl, rfl, rfl⟩).frame hframe₃ hform₃
  obtain ⟨⟨converged, s₄⟩, hnewton, h⟩ := bind_eq_ok.1 h
  obtain ⟨_, hnewton', hframe₄, _⟩ := hresolved₃.yields_newton
  obtain rfl := Except.ok.inj (hnewton'.symm.trans hnewton)
  cases converged with
  | false => cases h
  | true =>
  cases h
  exact ((hsubstituted.trans hsame₁).trans hsame₂).trans
    (((hlinearize.trans hreset).trans hframe₃).trans hframe₄).sameUnknowns

/-! ## The search -/

variable [Document δ α] {doc : δ} {g : GroupHandle} {watch : Stopwatch} {out : Outcome δ α}
  {report report₀ : Report} {independent : Bool}

/-- Recovering the unknowns ends with the report that was given and all values written back, or with
a failure for which the equation that defines an unknown is blamed. -/
theorem recoverAndWrite_cases (h : s.recoverAndWrite doc g report₀ independent = .ok out) :
    ∃ s', Frame Anything s s' ∧ (out = s'.conclude doc g report₀ s'.writes ∨
      ∃ defining, out = s'.conclude doc g
        { report₀ with
          result := .ofDiverged independent
          bad := blame doc report₀.bad defining } []) := by
  obtain ⟨⟨recovered, s₁⟩, hrecover, h⟩ := bind_eq_ok.1 h
  have hcopy : ∀ t : EquationSystem α, Frame Anything t t.copySubstituted := fun t =>
    t.frame_copySubstituted.mono fun _ _ _ => trivial
  have hframe : Frame Anything s s₁ := (hcopy s).trans (frame_recoverFrom hrecover)
  cases recovered with
  | error defining =>
    cases h
    exact ⟨s₁, hframe, .inr ⟨defining, rfl⟩⟩
  | ok _ =>
    cases h
    exact ⟨s₁.copySubstituted, hframe.trans (hcopy s₁), .inl rfl⟩

/-- A run that succeeds writes back the unknowns that it has, and the report that it was given. -/
theorem recoverAndWrite_report (h : s.recoverAndWrite doc g report₀ independent = .ok out)
    (hresult : out.result = .ok report) (hok : report.result.isOkay = true) :
    report = report₀ ∧ out.writes.map (·.handle) = s.params.map (·.handle) ∧
      out.document = Document.recordStatus (applyWrites doc out.writes) g report.status := by
  obtain ⟨s', hframe, rfl | ⟨defining, rfl⟩⟩ := recoverAndWrite_cases h
  · cases hresult
    refine ⟨rfl, ?_, rfl⟩
    rw [← hframe.handles_eq]
    simp [conclude, writes, Function.comp_def]
  · cases hresult
    cases independent <;> cases hok

/-- A run that finds redundant equations looks for conflicts before it recovers the unknowns. -/
theorem finish_redundant (h : s.finish doc g policy options watch independent = .ok out)
    (hresult : out.result = .ok report) (hredundant : report.result = .redundantOkay)
    (hfind : options.findBad = true) :
    ∃ found doc', s.findConflicts doc g options.strict (watch policy.searchTimeoutMs) =
        .ok (.ok found, doc') ∧ report.bad = found.bad ∧ report.timedOut = found.timedOut ∧
      out.writes.map (·.handle) = s.params.map (·.handle) ∧
      out.document = Document.recordStatus (applyWrites doc' out.writes) g report.status := by
  have hok : report.result.isOkay = true := by
    rw [hredundant]
    rfl
  obtain ⟨s₁, doc', found, _, hrecover, hsearch⟩ := finish_cases h hresult
  obtain ⟨rfl, hwrites, hdocument⟩ := recoverAndWrite_report hrecover hresult hok
  cases independent with
  | true => cases hredundant
  | false =>
    rw [if_pos ⟨rfl, hfind⟩] at hsearch
    obtain ⟨rfl, hsearch⟩ := hsearch
    exact ⟨found, doc', hsearch, rfl, rfl, hwrites, hdocument⟩

/-- A solve that finds redundant equations looks for conflicts with the values that its iteration
has been accepted at. -/
theorem solve_redundant (h : s.solve doc g options watch = .ok out)
    (hresult : out.result = .ok report) (hredundant : report.result = .redundantOkay)
    (hfind : options.findBad = true) :
    ∃ policy t doc₀ main main' found doc', s.load doc g none = .ok (policy, t, doc₀) ∧
      t.accepted policy options = .ok (some main) ∧ Frame (fun _ _ => False) main main' ∧
      main'.findConflicts doc₀ g options.strict (watch policy.searchTimeoutMs) =
        .ok (.ok found, doc') ∧
      report.bad = found.bad ∧ report.timedOut = found.timedOut ∧
      out.writes.map (·.handle) = main.params.map (·.handle) ∧
      out.document = Document.recordStatus (applyWrites doc' out.writes) g report.status := by
  have hok : report.result.isOkay = true := by
    rw [hredundant]
    rfl
  unfold solve at h
  cases hload : s.load doc g none with
  | error e =>
    rw [hload] at h
    cases h
    cases hresult
  | ok loaded =>
    obtain ⟨policy, t, doc₀⟩ := loaded
    rw [hload] at h
    obtain ⟨main, independent, main', haccepted, hrank, hfinish⟩ :=
      solveLoaded_eq_ok h hresult hok
    obtain ⟨hstill, _⟩ := testRankUnless_eq_ok (fun _ _ => False) hrank
    obtain ⟨found, doc', hsearch, hbad, htime, hwrites, hdocument⟩ :=
      finish_redundant hfinish hresult hredundant hfind
    rw [hstill.handles_eq] at hwrites
    exact ⟨policy, t, doc₀, main, main', found, doc', rfl, haccepted, hstill, hsearch, hbad, htime,
      hwrites, hdocument⟩

end

end SketchSolver.EquationSystem
