import SketchSolver.EquationTable
import SketchSolver.Proofs.Arithmetic.Order
import SketchSolver.Proofs.EquationSystem.Stopping
import SketchSolver.Proofs.Solve.Exits

/-!
# The constraints that a failure is blamed on

A failed iteration is blamed on constraints by the rows of the linearization that it has left: on
the constraint that wrote a row which is not satisfied, and on those whose equations have fixed
unknowns of it alone (`mem_blamed`).

Where the main iteration has stopped at a point, the residuals are those of that point, so exactly
the live equations that do not hold there are blamed (`solve_contradiction`). Where a step, or a
closed form, has given an unknown a value that cannot be meant, the residuals may all count as zero,
and then nobody is blamed. This and a step that cannot be computed are the only ways to a failure
without a culprit, but for a limit so low that not even one equation may be linearized
(`solve_bad_eq_nil`).
-/

namespace SketchSolver

/-- Values that can be written back are no failure. -/
theorem SolveResult.isDivergence_of_isOkay {r : SolveResult} (h : r.isOkay = true) :
    r.isDivergence = false := by
  cases r <;> first | rfl | cases h

/-! ## Lists of constraints -/

section
variable [Document δ α] {doc : δ} {bad : List ConstraintHandle} {h : EquationHandle}
  {hs : List EquationHandle} {c : ConstraintHandle}

/-- The constraint wrote the equation, and the document has it. -/
def Wrote (doc : δ) (c : ConstraintHandle) (h : EquationHandle) : Prop :=
  h.constraint? = some c ∧ Document.hasConstraint doc c = true

/-- Blaming an equation adds the constraint that wrote it, if the document has that. -/
theorem mem_blame : c ∈ blame doc bad h ↔ c ∈ bad ∨ Wrote doc c h := by
  unfold blame Wrote
  cases horigin : h.constraint? with
  | none => simp
  | some d =>
    simp only [Option.some.injEq, Bool.and_eq_true, Bool.not_eq_true', List.contains_eq_mem,
      decide_eq_false_iff_not]
    split
    · next hnew =>
      rw [List.mem_append, List.mem_singleton]
      refine or_congr_right ⟨?_, fun hc => hc.1.symm⟩
      rintro rfl
      exact ⟨rfl, hnew.1⟩
    · next hold =>
      refine ⟨Or.inl, ?_⟩
      rintro (hc | ⟨rfl, hexists⟩)
      · exact hc
      · by_contra hc
        exact hold ⟨hexists, hc⟩

/-- Blaming an equation adds no constraint twice. -/
theorem nodup_blame (hbad : bad.Nodup) : (blame doc bad h).Nodup := by
  unfold blame
  split
  · exact hbad
  · next c _ =>
    split
    · next hnew =>
      simp only [Bool.and_eq_true, Bool.not_eq_true', List.contains_eq_mem,
        decide_eq_false_iff_not] at hnew
      exact List.nodup_append.2
        ⟨hbad, List.nodup_singleton c, fun a ha b hb hab => hnew.2 (by simp_all)⟩
    · exact hbad

/-- Blaming equations one by one adds the constraints that wrote them. -/
theorem mem_foldl_blame : c ∈ hs.foldl (blame doc) bad ↔ c ∈ bad ∨ ∃ h ∈ hs, Wrote doc c h := by
  induction hs generalizing bad with
  | nil => simp
  | cons h hs ih =>
    rw [List.foldl_cons, ih, mem_blame, or_assoc, List.exists_mem_cons_iff]

/-- Blaming equations one by one adds no constraint twice. -/
theorem nodup_foldl_blame (hbad : bad.Nodup) : (hs.foldl (blame doc) bad).Nodup := by
  induction hs generalizing bad with
  | nil => exact hbad
  | cons h hs ih => exact ih (nodup_blame hbad)

end

namespace EquationSystem

section
variable [Scalar α] {s s' t main : EquationSystem α} {stage : Nat} {h : EquationHandle}

/-! ## Culprits -/

/-- The equations to blame for the rows of the linearization that are not satisfied, by their
handles. -/
def culprits (s : EquationSystem α) : List EquationHandle :=
  s.linearization.rows.zipIdx.flatMap fun (k, row) =>
    if s.isSatisfied row then []
    else
      match s.equations[k]? with
      | none => []
      | some q => q.handle :: (s.fixingEquations q.expr).map (·.handle)

/-- The constraints that are blamed are those of the culprits. -/
theorem blamed_eq [Document δ α] (s : EquationSystem α) (doc : δ) :
    s.blamed doc = s.culprits.foldl (blame doc) [] := by
  unfold blamed culprits
  rw [List.foldl_flatMap]
  congr 1
  funext bad (k, row)
  simp only
  split
  · rfl
  · cases s.equations[k]? with
    | none => rfl
    | some q =>
      simp only
      rw [List.foldl_cons, List.foldl_map]

omit [Scalar α] in
/-- A fixing equation has the stage of an unknown that the expression refers to. -/
theorem mem_fixingEquations {e : Expr α} {f : Equation α} :
    f ∈ s.fixingEquations e ↔ ∃ x p, e.dependsOn x = true ∧ s.param? x = some p ∧
      p.state = .solvedAlone ∧ f ∈ s.equations ∧ f.state = .solvedAlone ∧ f.stage = p.stage := by
  unfold fixingEquations
  rw [List.mem_flatMap]
  refine exists_congr fun x => ?_
  rw [Expr.mem_params]
  cases s.param? x with
  | none => simp
  | some p => by_cases hstate : p.state = .solvedAlone <;> simp [hstate]

/-- A culprit is the equation of a row that is not satisfied, or one that has fixed an unknown of
it. -/
theorem mem_culprits : h ∈ s.culprits ↔ ∃ row k q, s.linearization.rows[row]? = some k ∧
    s.isSatisfied row = false ∧ s.equations[k]? = some q ∧
      (h = q.handle ∨ ∃ f ∈ s.fixingEquations q.expr, h = f.handle) := by
  unfold culprits
  rw [List.mem_flatMap]
  constructor
  · rintro ⟨⟨k, row⟩, hrow, hmem⟩
    rw [List.mem_zipIdx_iff_getElem?] at hrow
    cases hsat : s.isSatisfied row with
    | true => simp [hsat] at hmem
    | false =>
      cases hq : s.equations[k]? with
      | none => simp [hsat, hq] at hmem
      | some q =>
        refine ⟨row, k, q, hrow, hsat, hq, ?_⟩
        simpa [hsat, hq, eq_comm] using hmem
  · rintro ⟨row, k, q, hrow, hsat, hq, hmem⟩
    refine ⟨(k, row), List.mem_zipIdx_iff_getElem?.2 hrow, ?_⟩
    simpa [hsat, hq, eq_comm] using hmem

/-! ## Equations that do not hold -/

/-- The residual of the equation at the present values, that of its folded left side. -/
def residual (s : EquationSystem α) (q : Equation α) : α :=
  q.expr.fold.eval (.byHandle s.lookup.value)

/-- The equation counts as satisfied at the present values. -/
def Holds (s : EquationSystem α) (q : Equation α) : Prop :=
  Scalar.abs (s.residual q) ≤ s.settings.convergeTolerance ∧
    s.settings.isUnreasonable (s.residual q) = false

/-- The constraint is to blame if the equation does not hold: it wrote the equation, or the one that
has fixed an unknown of it. -/
def Implicates [Document δ α] (s : EquationSystem α) (doc : δ) (q : Equation α)
    (c : ConstraintHandle) : Prop :=
  Wrote doc c q.handle ∨ ∃ x k f, q.expr.dependsOn x = true ∧ s.FixedAt x k ∧
    s.equations[k]? = some f ∧ Wrote doc c f.handle

/-- A row is satisfied if its residual is within the tolerance and can be meant. -/
theorem isSatisfied_iff {row : Nat} {b : α} (hb : s.linearization.residuals[row]? = some b) :
    s.isSatisfied row = true ↔
      Scalar.abs b ≤ s.settings.convergeTolerance ∧ s.settings.isUnreasonable b = false := by
  simp [isSatisfied, hb]

/-- An equation whose residual is above the tolerance, or cannot be meant, does not hold. -/
theorem not_holds [LawfulOrder α] {q : Equation α}
    (hq : s.settings.convergeTolerance < Scalar.abs (s.residual q) ∨
      s.settings.isUnreasonable (s.residual q) = true) : ¬ s.Holds q := by
  rintro ⟨hle, hreasonable⟩
  rcases hq with hlt | hunreasonable
  · exact LawfulOrder.not_le_of_lt hlt hle
  · rw [hreasonable] at hunreasonable
    cases hunreasonable

omit [Scalar α] in
/-- Equations that have fixed an unknown alone are found by its stage. -/
theorem Staged.exists_fixingEquation (hs : Staged stage s) {e : Expr α}
    {P : EquationHandle → Prop} :
    (∃ f ∈ s.fixingEquations e, P f.handle) ↔
      ∃ x k f, e.dependsOn x = true ∧ s.FixedAt x k ∧ s.equations[k]? = some f ∧ P f.handle := by
  constructor
  · rintro ⟨f, hf, hP⟩
    obtain ⟨x, p, hx, hp, hstate, hmem, hfstate, hstage⟩ := mem_fixingEquations.1 hf
    obtain ⟨k, hk⟩ := List.getElem?_of_mem hmem
    exact ⟨x, k, f, hx, (hs.fixedAt_iff hp hstate hk).2 ⟨hfstate, hstage⟩, hk, hP⟩
  · rintro ⟨x, k, f, hx, hfixed, hk, hP⟩
    obtain ⟨f', hk', hfstate, href⟩ := id hfixed
    rw [hk] at hk'
    cases hk'
    obtain ⟨x', p, href', hp, hstate, hstage⟩ := hs.fixes f (List.mem_of_getElem? hk) hfstate
    obtain rfl := Referenced.exactly.inj (href.symm.trans href')
    exact ⟨f, mem_fixingEquations.2
      ⟨x, p, hx, hp, hstate, List.mem_of_getElem? hk, hfstate, hstage.symm⟩, hP⟩

variable [Document δ α] {doc d : δ} {c : ConstraintHandle}

/-- Where the residuals are those at the present values, exactly the equations of the part that do
not hold are blamed. -/
theorem mem_blamed {sel : Selection} (hs : Staged stage s) (hcovers : Covers sel s)
    (hcurrent : s.Current) : c ∈ s.blamed doc ↔
      ∃ q ∈ s.equations, sel.hasEquation q = true ∧ ¬ s.Holds q ∧ s.Implicates doc q c := by
  have hculprit : ∀ q : Equation α,
      (∃ h, (h = q.handle ∨ ∃ f ∈ s.fixingEquations q.expr, h = f.handle) ∧ Wrote doc c h) ↔
        s.Implicates doc q c := by
    intro q
    unfold Implicates
    rw [← hs.exists_fixingEquation (P := fun h => Wrote doc c h)]
    constructor
    · rintro ⟨_, rfl | ⟨f, hf, rfl⟩, hwrote⟩
      · exact Or.inl hwrote
      · exact Or.inr ⟨f, hf, hwrote⟩
    · rintro (hwrote | ⟨f, hf, hwrote⟩)
      · exact ⟨_, Or.inl rfl, hwrote⟩
      · exact ⟨_, Or.inr ⟨f, hf, rfl⟩, hwrote⟩
  have hsatisfied : ∀ {row k : Nat} {q : Equation α}, s.linearization.rows[row]? = some k →
      s.equations[k]? = some q → (s.isSatisfied row = true ↔ s.Holds q) := fun hrow hq =>
    isSatisfied_iff (hcovers.residual_of_row hcurrent hrow hq)
  rw [blamed_eq, mem_foldl_blame]
  constructor
  · rintro (hc | ⟨h, hmem, hwrote⟩)
    · cases hc
    · obtain ⟨row, k, q, hrow, hsat, hq, hcase⟩ := mem_culprits.1 hmem
      obtain ⟨q', hq', hsel⟩ := hcovers.equation_of_row hrow
      rw [hq] at hq'
      cases hq'
      refine ⟨q, List.mem_of_getElem? hq, hsel, fun hholds => ?_, (hculprit q).1 ⟨h, hcase, hwrote⟩⟩
      rw [(hsatisfied hrow hq).2 hholds] at hsat
      cases hsat
  · rintro ⟨q, hmem, hsel, hnot, himplicates⟩
    obtain ⟨k, hq⟩ := List.getElem?_of_mem hmem
    obtain ⟨row, hrow⟩ := hcovers.exists_row hq hsel
    obtain ⟨h, hcase, hwrote⟩ := (hculprit q).2 himplicates
    have hsat : s.isSatisfied row = false :=
      Bool.eq_false_iff.2 fun hsat => hnot ((hsatisfied hrow hq).1 hsat)
    exact Or.inr ⟨h, mem_culprits.2 ⟨row, k, q, hrow, hsat, hq, hcase⟩, hwrote⟩

/-- No constraint is blamed twice. -/
theorem nodup_blamed (s : EquationSystem α) (doc : δ) : (s.blamed doc).Nodup := by
  rw [blamed_eq]
  exact nodup_foldl_blame List.nodup_nil

/-- Only constraints that the document has are blamed. -/
theorem hasConstraint_of_mem_blamed (hc : c ∈ s.blamed doc) :
    Document.hasConstraint doc c = true := by
  rw [blamed_eq, mem_foldl_blame] at hc
  rcases hc with hc | ⟨_, _, hwrote⟩
  · cases hc
  · exact hwrote.2

/-- Nobody is blamed if all rows are satisfied, and only then if every row stands for an equation of
a constraint that the document has. -/
theorem blamed_eq_nil_iff
    (hrows : ∀ k ∈ s.linearization.rows, ∃ q, s.equations[k]? = some q ∧
      ∃ c, Wrote doc c q.handle) :
    s.blamed doc = [] ↔ ∀ row < s.linearization.rows.length, s.isSatisfied row = true := by
  constructor
  · intro hnil row hrow
    by_contra hsat
    obtain ⟨q, hq, c, hwrote⟩ := hrows _ (List.getElem_mem hrow)
    have hmem : q.handle ∈ s.culprits := mem_culprits.2 ⟨row, _, q, List.getElem?_eq_getElem hrow,
      Bool.eq_false_iff.2 hsat, hq, Or.inl rfl⟩
    have hc : c ∈ s.blamed doc := by
      rw [blamed_eq]
      exact mem_foldl_blame.2 (Or.inr ⟨_, hmem, hwrote⟩)
    rw [hnil] at hc
    cases hc
  · intro hsat
    have hnone : s.culprits = [] := by
      refine List.eq_nil_iff_forall_not_mem.2 fun h hmem => ?_
      obtain ⟨row, k, q, hrow, hnot, _⟩ := mem_culprits.1 hmem
      rw [hsat row (List.getElem?_eq_some_iff.1 hrow).1] at hnot
      cases hnot
    rw [blamed_eq, hnone]
    rfl

/-! ## The main iteration -/

variable {s₁ : EquationSystem α} {g : GroupHandle} {policy : Policy} {options : SolveOptions}
  {watch : Stopwatch} {out : Outcome δ α} {report : Report} {independent converged : Bool}

/-- The iteration has not stopped since its last step has given an unknown a value that cannot be
meant: there is no step, or all unknowns have values that can be. -/
def StoppedInReason (s : EquationSystem α) : Prop :=
  (∃ e, s.leastSquaresStep = .error e) ∨
    ∀ p ∈ s.params, p.state = .live → s.settings.isUnreasonable p.value = false

omit [Document δ α] in
/-- Such an iteration leaves the residuals of the point that it has stopped at. -/
theorem Stopped.current (hstopped : Stopped s) (hcovers : Covers .live s)
    (hreason : s.StoppedInReason) : s.Current := by
  cases hstopped with
  | noStep _ hcurrent => exact hcurrent
  | rejected _ hcurrent => exact hcurrent
  | unreasonable hunreasonable hstep =>
    rcases hreason with ⟨e, herror⟩ | hreasonable
    · rw [hstep] at herror
      cases herror
    · obtain ⟨i, hi, p, hp, htoo⟩ := hunreasonable
      rw [hcovers.columns] at hi
      obtain ⟨p', hp', hlive⟩ := mem_select_fst.1 hi
      rw [hp] at hp'
      cases hp'
      have hstate : p.state = .live := by simpa [Selection.hasParam] using hlive
      rw [hreasonable p (List.mem_of_getElem? hp) hstate] at htoo
      cases htoo

omit [Document δ α] in
/-- A residual that does not count as zero belongs to a row that is not satisfied. -/
theorem exists_unsatisfied [LawfulOrder α]
    (hjudge : s.settings.judge s.linearization.residuals ≠ .converged) :
    ∃ row < s.linearization.residuals.length, s.isSatisfied row = false := by
  have hbad : ∃ b ∈ s.linearization.residuals, s.settings.isUnreasonable b = true ∨
      s.settings.convergeTolerance < Scalar.abs b := by
    by_contra hnone
    push Not at hnone
    refine hjudge (judge_eq_converged.2 fun b hb => ?_)
    exact ⟨Bool.eq_false_iff.2 (hnone b hb).1, (hnone b hb).2⟩
  obtain ⟨b, hb, hcase⟩ := hbad
  obtain ⟨row, hrow⟩ := List.getElem?_of_mem hb
  refine ⟨row, (List.getElem?_eq_some_iff.1 hrow).1, Bool.eq_false_iff.2 fun hsat => ?_⟩
  obtain ⟨hle, hreasonable⟩ := (isSatisfied_iff hrow).1 hsat
  rcases hcase with hunreasonable | hlt
  · rw [hreasonable] at hunreasonable
    cases hunreasonable
  · exact LawfulOrder.not_le_of_lt hlt hle

omit [Scalar α] [Document δ α] in
/-- Nothing has been solved alone when substitution is done. -/
theorem staged_simplified (s : EquationSystem α) (policy : Policy) (options : SolveOptions) :
    Staged 1 (s.simplified policy options) := by
  have hparams : ∀ p ∈ s.clearTags.params, p.state = .live := by
    intro p hp
    obtain ⟨p₀, _, rfl⟩ := List.mem_map.1 hp
    rfl
  have hequations : ∀ q ∈ s.clearTags.equations, q.state = .live := by
    intro q hq
    obtain ⟨q₀, _, rfl⟩ := List.mem_map.1 hq
    rfl
  have hclear : Staged 1 s.clearTags :=
    .initial (fun p hp => by simp [hparams p hp]) fun q hq => by simp [hequations q hq]
  unfold simplified
  split
  · generalize s.clearTags = t at hparams hequations hclear ⊢
    unfold substitute
    split
    · exact hclear
    · refine .initial ?_ ?_
      · intro p hp
        obtain ⟨⟨⟨p₀, root⟩, i⟩, hmem, rfl⟩ := List.mem_map.1 hp
        have hp₀ : p₀ ∈ t.params := (List.of_mem_zip (List.fst_mem_of_mem_zipIdx hmem)).1
        simp only [substituteParam]
        split <;> simp [hparams p₀ hp₀]
      · intro q hq
        obtain ⟨q₀, hq₀, rfl⟩ := List.mem_map.1 hq
        simp only
        split <;> simp [hequations q₀ hq₀]
  · exact hclear

omit [Scalar α] [Document δ α] in
/-- Clearing the tags and substituting keep the origins. -/
theorem sameOrigins_simplified (s : EquationSystem α) (policy : Policy) (options : SolveOptions) :
    SameOrigins s (s.simplified policy options) := by
  unfold simplified
  split
  · exact (SameOrigins.clearTags s).trans (.substitute _)
  · exact .clearTags s

omit [Document δ α] in
/-- A system that the main iteration has left stands for the live part, with a stage for every
equation solved alone, and no equation has got another origin. -/
theorem newton_mainSystem
    (hmain : t.mainSystem policy options = .ok (some (independent, main)))
    (hnewton : main.newton = .ok (converged, s)) :
    Covers .live s ∧ (∃ stage, Staged stage s) ∧ SameOrigins t s := by
  obtain ⟨s₁, halone, hwritten, hframe, hform⟩ := mainSystem_eq_ok hmain
  obtain ⟨hmoved, hsame⟩ := frame_newton hnewton
  obtain ⟨stage, hstaged⟩ := (t.staged_simplified policy options).solveAloneFrom halone
  refine ⟨(covers_of_sameForm hwritten hframe hform).frame hmoved hsame,
    ⟨stage, (hstaged.eliminate.frame hframe).frame hmoved⟩, ?_⟩
  have hreduced : SameOrigins t s₁.eliminate.2 := (t.sameOrigins_simplified policy options).trans
    (SameEquations.reduced halone).sameOrigins
  exact (hreduced.trans (.of_frame hframe)).trans (.of_frame hmoved)

/-- Both halves of a contradiction are reported. Where the main iteration has failed and no unknown
has got a value that cannot be meant, constraints are blamed once each, and exactly those are that
have written a live equation which does not hold where the iteration has stopped, or the one
equation that has fixed an unknown of it. -/
theorem solve_contradiction [LawfulOrder α] {d : δ}
    (hload : s.load doc g none = .ok (policy, t, d))
    (hmain : t.mainSystem policy options = .ok (some (independent, main)))
    (hnewton : main.newton = .ok (false, s')) (hreason : s'.StoppedInReason) :
    ∃ report, s.solve doc g options watch = .ok (s'.conclude d g report []) ∧
      report.result = .ofDiverged independent ∧ report.bad.Nodup ∧
      (∀ c ∈ report.bad, Document.hasConstraint d c = true ∧
        ∃ q ∈ s'.equations, q.state = .live ∧ ¬ s'.Holds q ∧ s'.Implicates d q c) ∧
      (∀ q ∈ s'.equations, q.state = .live →
        s'.settings.convergeTolerance < Scalar.abs (s'.residual q) ∨
          s'.settings.isUnreasonable (s'.residual q) = true →
        ∀ c, s'.Implicates d q c → c ∈ report.bad) ∧
      ∀ x p, s'.param? x = some p → p.state = .solvedAlone → ∃! k, s'.FixedAt x k := by
  obtain ⟨hcovers, ⟨stage, hstaged⟩, _⟩ := newton_mainSystem hmain hnewton
  have hcurrent : s'.Current := (newton_stopped hnewton).current hcovers hreason
  refine ⟨s'.divergence d independent, ?_, rfl, s'.nodup_blamed d, ?_, ?_, ?_⟩
  · simp only [solve, hload]
    rw [solveLoaded_of_mainSystem hmain, hnewton]
    rfl
  · intro c hc
    obtain ⟨q, hq, hlive, hblamed⟩ := (mem_blamed hstaged hcovers hcurrent).1 hc
    exact ⟨hasConstraint_of_mem_blamed hc, q, hq, by simpa [Selection.hasEquation] using hlive,
      hblamed⟩
  · intro q hq hlive hresidual c himplicates
    refine (mem_blamed hstaged hcovers hcurrent).2 ⟨q, hq, ?_, not_holds hresidual, himplicates⟩
    simp [Selection.hasEquation, hlive]
  · intro x p hp hstate
    exact hstaged.existsUnique_fixedAt hp hstate

/-- A group with two values for one parameter. -/
def twoValues : EquationTable (Exact ℚ) where
  params := [{ handle := ⟨1⟩, value := 0 }]
  constraints :=
    [{ handle := ⟨1⟩, coincident := false, equations := [.param ⟨1⟩ - .const (.number 1)] },
      { handle := ⟨2⟩, coincident := false, equations := [.param ⟨1⟩ - .const (.number 2)] }]

/-- The first constraint fixes the parameter, the second one fails, and both are blamed. -/
theorem solve_twoValues : ∃ policy t d main s' report,
    (empty Settings.rational).load twoValues EquationTable.group none = .ok (policy, t, d) ∧
    mainSystem t policy {} = .ok (some (false, main)) ∧ main.newton = .ok (false, s') ∧
    s'.StoppedInReason ∧
    solve (empty Settings.rational) twoValues EquationTable.group {} .still =
      .ok (s'.conclude d EquationTable.group report []) ∧
    report.bad.Nodup ∧ report.bad = [⟨2⟩, ⟨1⟩] ∧ ∃! k, s'.FixedAt ⟨1⟩ k := by
  have hrun : (((empty Settings.rational).load twoValues EquationTable.group none).toOption.bind
      fun (policy, t, d) => (mainSystem t policy {}).toOption.bind fun reached => reached.bind
        fun (independent, main) => main.newton.toOption.map fun (converged, s') =>
          (independent, converged, s'.params.map (·.state), (s'.param? ⟨1⟩).isSome)) =
      some (false, false, [.solvedAlone], true) := by decide +kernel
  have hbad : ((solve (empty Settings.rational) twoValues EquationTable.group {}
      .still).toOption.bind (·.result.toOption)).map (·.bad) = some [⟨2⟩, ⟨1⟩] := by decide +kernel
  obtain ⟨⟨policy, t, d⟩, hload, hrun⟩ := Option.bind_eq_some_iff.1 hrun
  obtain ⟨reached, hreached, hrun⟩ := Option.bind_eq_some_iff.1 hrun
  obtain ⟨⟨independent, main⟩, rfl, hrun⟩ := Option.bind_eq_some_iff.1 hrun
  obtain ⟨⟨converged, s'⟩, hnewton, hrun⟩ := Option.map_eq_some_iff.1 hrun
  rw [toOption_eq_some] at hload hreached hnewton
  simp only [Prod.mk.injEq] at hrun
  obtain ⟨rfl, rfl, hstates, hsome⟩ := hrun
  have hstate : ∀ p ∈ s'.params, p.state = .solvedAlone := by
    intro p hp
    have hmem : p.state ∈ s'.params.map (·.state) := List.mem_map_of_mem hp
    rw [hstates, List.mem_singleton] at hmem
    exact hmem
  have hreason : s'.StoppedInReason := Or.inr fun p hp hlive => by
    rw [hstate p hp] at hlive
    cases hlive
  obtain ⟨report, hsolve, _, hnodup, _, _, hfixed⟩ :=
    solve_contradiction hload hreached hnewton hreason
  obtain ⟨p, hp⟩ := Option.isSome_iff_exists.1 hsome
  rw [hsolve] at hbad
  exact ⟨policy, t, d, main, s', report, hload, hreached, hnewton, hreason, hsolve, hnodup,
    Option.some.inj hbad, hfixed _ p hp (hstate p (mem_of_param? hp))⟩

/-! ## Failures that nobody is blamed for -/

omit [Document δ α] in
/-- The equation that an unknown cannot be recovered from is one of the system. -/
theorem mem_of_recoverFrom {entries : List (ParamHandle × Nat)}
    (hrecover : recoverFrom entries s = .ok (.error h, s')) : h ∈ s.equations.map (·.handle) := by
  obtain ⟨heq, hmem⟩ := recoverFrom_invariant (P := (·.equations = s.equations))
    (fun _ _ _ ht => ht) rfl hrecover
  rw [← heq]
  exact hmem h rfl

/-- A failure after the main iteration is blamed on the constraint of the equation that an unknown
cannot be recovered from. -/
theorem recoverAndWrite_diverged {report₀ : Report}
    (hrun : s.recoverAndWrite doc g report₀ independent = .ok out)
    (hreport : out.result = .ok report) (hdiverged : report.result.isDivergence = true)
    (hok : report₀.result.isOkay = true) :
    ∃ h ∈ s.equations.map (·.handle), report.bad = blame doc report₀.bad h := by
  unfold recoverAndWrite at hrun
  obtain ⟨⟨recovered, s₁⟩, hrecover, hrun⟩ := bind_eq_ok.1 hrun
  cases recovered with
  | error defining =>
    cases hrun
    cases hreport
    have hmem := mem_of_recoverFrom hrecover
    rw [s.frame_copySubstituted.equations] at hmem
    exact ⟨defining, hmem, rfl⟩
  | ok _ =>
    cases hrun
    cases hreport
    rw [SolveResult.isDivergence_of_isOkay hok] at hdiverged
    cases hdiverged

/-- A failure after the iteration has converged is one to recover an unknown, and the constraint of
its equation is blamed last. -/
theorem finish_diverged (hd : Relabelled g doc d)
    (hrun : s.finish d g policy options watch independent = .ok out)
    (hreport : out.result = .ok report) (hdiverged : report.result.isDivergence = true) :
    ∃ d' bad, Relabelled g doc d' ∧ ∃ h ∈ s.equations.map (·.handle),
      report.bad = blame d' bad h := by
  have hok := SolveResult.isOkay_ofConverged independent
  unfold finish at hrun
  cases independent with
  | true =>
    obtain ⟨s₁, hmark, hrun⟩ := bind_eq_ok.1 hrun
    have hframe : Frame (fun _ _ => False) s s₁ := frame_markFree hmark
    obtain ⟨h, hmem, hbad⟩ := recoverAndWrite_diverged hrun hreport hdiverged hok
    rw [hframe.equations] at hmem
    exact ⟨d, _, hd, h, hmem, hbad⟩
  | false =>
    simp only [Bool.false_eq_true, if_false] at hrun
    split at hrun
    · obtain ⟨⟨search, d'⟩, hsearch, hrun⟩ := bind_eq_ok.1 hrun
      cases search with
      | error e =>
        cases hrun
        cases hreport
      | ok found =>
        obtain ⟨h, hmem, hbad⟩ := recoverAndWrite_diverged hrun hreport hdiverged hok
        exact ⟨d', _, (relabelled_findConflicts hd hsearch).1, h, hmem, hbad⟩
    · obtain ⟨h, hmem, hbad⟩ := recoverAndWrite_diverged hrun hreport hdiverged hok
      exact ⟨d, _, hd, h, hmem, hbad⟩

/-- What a failed iteration has left blames nobody only if it has stopped at an unknown whose value
cannot be meant, or has no step. -/
theorem Stopped.of_blamed_eq_nil [LawfulOrder α] {sel : Selection} (hstopped : Stopped s)
    (hcovers : Covers sel s)
    (hsat : ∀ row < s.linearization.rows.length, s.isSatisfied row = true) :
    s.HasUnreasonable ∨ ∃ e, s.leastSquaresStep = .error e := by
  cases hstopped with
  | noStep h _ => exact Or.inr ⟨_, h⟩
  | unreasonable h _ => exact Or.inl h
  | rejected h hcurrent =>
    obtain ⟨row, hrow, hnot⟩ := exists_unsatisfied h
    rw [hcovers.length_residuals hcurrent] at hrow
    rw [hsat row hrow] at hnot
    cases hnot

/-- Nobody is blamed for a failure exactly if it comes before any values have been accepted, and all
rows of the linearization that it leaves are satisfied. This takes a value that cannot be meant or
a step that cannot be computed, or a limit that lets not even one equation be linearized. -/
theorem solve_bad_eq_nil [LawfulOrder α]
    (hload : s.load doc g none = .ok (policy, t, d))
    (horigins : ∀ q ∈ t.equations, ∃ c, ∀ d', Relabelled g doc d' → Wrote d' c q.handle)
    (hsolve : s.solve doc g options watch = .ok out) (hreport : out.result = .ok report)
    (hdiverged : report.result.isDivergence = true) :
    (report.bad = [] ↔ t.accepted policy options = .ok none ∧
      ∀ row < out.system.linearization.rows.length, out.system.isSatisfied row = true) ∧
    (report.bad = [] → out.system.linearization = .empty ∨ out.system.HasUnreasonable ∨
      ∃ e, out.system.leastSquaresStep = .error e) := by
  have hd : Relabelled g doc d := relabelled_load .refl hload
  have hwrote : ∀ {s' : EquationSystem α}, SameOrigins t s' → ∀ h ∈ s'.equations.map (·.handle),
      ∃ c, ∀ d', Relabelled g doc d' → Wrote d' c h := by
    intro s' hsame h hh
    rw [hsame] at hh
    obtain ⟨q, hq, rfl⟩ := List.mem_map.1 hh
    exact horigins q hq
  have hnil : ∀ {s' : EquationSystem α} {sel : Selection}, SameOrigins t s' → Covers sel s' →
      (s'.blamed d = [] ↔
        ∀ row < s'.linearization.rows.length, s'.isSatisfied row = true) := by
    intro s' sel hsame hcovers
    refine blamed_eq_nil_iff fun k hk => ?_
    obtain ⟨row, hrow⟩ := List.getElem?_of_mem hk
    obtain ⟨q, hq, _⟩ := hcovers.equation_of_row hrow
    obtain ⟨c, hc⟩ := hwrote hsame q.handle (List.mem_map_of_mem (List.mem_of_getElem? hq))
    exact ⟨q, hq, c, hc d hd⟩
  simp only [solve, hload] at hsolve
  cases solveLoaded_exit hsolve with
  | alone halone =>
    cases hreport
    have hsame := (t.sameOrigins_simplified policy options).trans
      (SameEquations.solveSingletons halone).sameOrigins
    simp only [accepted_of_alone halone, true_and]
    rcases solveSingletons_stopped halone with hempty | ⟨stage, hcovers, hstopped⟩
    · refine ⟨?_, fun _ => Or.inl hempty⟩
      simp [divergence, blamed, conclude, hempty, Linearization.empty]
    · refine ⟨hnil hsame hcovers, fun hbad => Or.inr ?_⟩
      rcases hstopped with hunreasonable | hstopped
      · exact Or.inl hunreasonable
      · exact hstopped.of_blamed_eq_nil hcovers ((hnil hsame hcovers).1 hbad)
  | tooMany _ _ =>
    cases hreport
    cases hdiverged
  | diverged hmain hnewton =>
    cases hreport
    obtain ⟨hcovers, _, hsame⟩ := newton_mainSystem hmain hnewton
    have haccepted : t.accepted policy options = .ok none := by
      rw [accepted_of_mainSystem hmain, hnewton]
      rfl
    simp only [haccepted, true_and]
    refine ⟨hnil hsame hcovers, fun hbad => Or.inr ?_⟩
    exact (newton_stopped hnewton).of_blamed_eq_nil hcovers ((hnil hsame hcovers).1 hbad)
  | @converged _ _ s₁ _ s₂ _ hmain hnewton hrank hfinish =>
    obtain ⟨_, _, hsame⟩ := newton_mainSystem hmain hnewton
    obtain ⟨hstill, _⟩ := testRankUnless_eq_ok (fun _ _ => False) hrank
    have haccepted : t.accepted policy options = .ok (some s₁) := by
      rw [accepted_of_mainSystem hmain, hnewton]
      rfl
    have hbad : report.bad ≠ [] := by
      intro hbad
      obtain ⟨d', bad, hd', h, hmem, heq⟩ := finish_diverged hd hfinish hreport hdiverged
      obtain ⟨c, hc⟩ := hwrote (hsame.trans (.of_frame hstill)) h hmem
      have hmem : c ∈ report.bad := by
        rw [heq]
        exact mem_blame.2 (Or.inr (hc d' hd'))
      rw [hbad] at hmem
      cases hmem
    refine ⟨⟨fun h => absurd h hbad, ?_⟩, fun h => absurd h hbad⟩
    rintro ⟨hnone, _⟩
    rw [haccepted] at hnone
    cases hnone

omit [Scalar α] in
/-- Where a table has no equations but those of its constraints, every equation that is loaded comes
from a constraint that exists. -/
theorem exists_wrote_of_load {table d : EquationTable α} {except : Option ConstraintHandle}
    (hextra : table.extra = []) (hload : s.load table g except = .ok (policy, t, d)) :
    ∀ q ∈ t.equations, ∃ c, ∀ d', Relabelled g table d' → Wrote d' c q.handle := by
  intro q hq
  rw [(loads_of_load hload).equations] at hq
  simp only [Document.writeEquations, EquationTable.equations, hextra, List.map_nil,
    List.append_nil, List.nil_append, List.mem_flatMap, List.mem_filter] at hq
  obtain ⟨c, ⟨hc, _⟩, hq⟩ := hq
  obtain ⟨e, _, rfl⟩ := List.mem_map.1 hq
  refine ⟨c.handle, fun d' hd => ⟨rfl, ?_⟩⟩
  rw [hd.eq_table]
  exact List.any_eq_true.2 ⟨c, hc, by simp⟩

/-- A group whose only equation puts its parameter out of reach. -/
def outOfReach : EquationTable (Exact ℚ) where
  params := [{ handle := ⟨1⟩, value := 0 }]
  constraints :=
    [{ handle := ⟨1⟩, coincident := false,
        equations := [.param ⟨1⟩ - .const (.number 1000000000000)] }]

/-- The parameter gets a value that cannot be meant, for which the equation holds, so that nobody is
blamed. -/
theorem solve_outOfReach : ∃ policy t d out report,
    (empty Settings.rational).load outOfReach EquationTable.group none = .ok (policy, t, d) ∧
    (∀ q ∈ t.equations, ∃ c, ∀ d', Relabelled EquationTable.group outOfReach d' →
      Wrote d' c q.handle) ∧
    solve (empty Settings.rational) outOfReach EquationTable.group {} .still = .ok out ∧
    out.result = .ok report ∧ report.result.isDivergence = true ∧ report.bad = [] ∧
    t.accepted policy {} = .ok none ∧ out.system.linearization.rows.length = 1 ∧
    (out.system.linearization = .empty ∨ out.system.HasUnreasonable ∨
      ∃ e, out.system.leastSquaresStep = .error e) := by
  have hload : (((empty Settings.rational).load outOfReach EquationTable.group none).toOption.map
      fun (_, t, _) => t.equations.length) = some 1 := by decide +kernel
  have hrun : (solve (empty Settings.rational) outOfReach EquationTable.group {}
      .still).toOption.map (fun out =>
        (out.result.toOption.map fun r => (r.result.isDivergence, r.bad),
          out.system.linearization.rows.length)) = some (some (true, []), 1) := by decide +kernel
  obtain ⟨⟨policy, t, d⟩, hload, _⟩ := Option.map_eq_some_iff.1 hload
  obtain ⟨out, hout, heq⟩ := Option.map_eq_some_iff.1 hrun
  obtain ⟨hresult, hrows⟩ := Prod.mk.inj heq
  obtain ⟨report, hreport, heq⟩ := Option.map_eq_some_iff.1 hresult
  obtain ⟨hdiverged, hbad⟩ := Prod.mk.inj heq
  rw [toOption_eq_some] at hload hout hreport
  have horigins := exists_wrote_of_load rfl hload
  obtain ⟨hiff, hcauses⟩ := solve_bad_eq_nil hload horigins hout hreport hdiverged
  exact ⟨policy, t, d, out, report, hload, horigins, hout, hreport, hdiverged, hbad,
    (hiff.1 hbad).1, hrows, hcauses hbad⟩

end

end EquationSystem

end SketchSolver
