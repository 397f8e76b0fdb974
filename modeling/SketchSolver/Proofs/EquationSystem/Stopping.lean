import SketchSolver.Proofs.EquationSystem.Stages

/-!
# How an iteration stops

Newton's iteration ends without having converged in one of three ways (`Stopped`): its step cannot
be computed, an unknown gets a value that cannot be meant, or the residuals are not all small. In
the second case the residuals are those of the point before the step (`Current` fails), and in the
others they belong to the point that the iteration has stopped at.

A pass over the equations of one unknown that fails does so at an iteration, or at a value found in
closed form that cannot be meant, or since not even one equation may be linearized
(`solveSingletons_stopped`).
-/

namespace SketchSolver.EquationSystem

variable {s s' t : EquationSystem α} {moved : ParamState → Nat → Prop} {sel : Selection}
  {stage i k : Nat} {h : ParamHandle}

/-! ## Linearizations of a part -/

section
variable [Scalar α]

/-- The linearization is that of a part of the system. -/
structure Covers (sel : Selection) (s : EquationSystem α) : Prop where
  columns : s.linearization.columns = (s.select sel).1
  rows : s.linearization.rows = (s.select sel).2
  residualExprs : s.linearization.residualExprs =
    (s.select sel).2.filterMap fun k => s.equations[k]?.map fun q => s.slotForm q.expr

/-- The residuals are those at the present values. -/
def Current (s : EquationSystem α) : Prop :=
  s.linearization.residuals = s.linearization.residualExprs.map (·.eval s.lookup)

/-- An unknown of the linearization has a value that cannot be meant. -/
def HasUnreasonable (s : EquationSystem α) : Prop :=
  ∃ i ∈ s.linearization.columns, ∃ p, s.params[i]? = some p ∧
    s.settings.isUnreasonable p.value = true

omit [Scalar α] in
/-- Positions are picked alike where elements are alike. -/
theorem filterMap_zipIdx_congr {β : Type u} {p : β → Bool} :
    ∀ {l m : List β} (n : Nat), List.Forall₂ (fun x y => p y = p x) l m →
      ((m.zipIdx n).filterMap fun (x, i) => if p x then some i else none) =
        (l.zipIdx n).filterMap fun (x, i) => if p x then some i else none
  | _, _, _, .nil => rfl
  | x :: l, y :: m, n, .cons hxy hrest => by
    rw [List.zipIdx_cons, List.zipIdx_cons, List.filterMap_cons, List.filterMap_cons,
      filterMap_zipIdx_congr (n + 1) hrest]
    simp only [hxy]

omit [Scalar α] in
/-- Moving unknowns changes no part. -/
theorem select_eq_of_frame (hframe : Frame moved s s') : s'.select sel = s.select sel := by
  refine Prod.ext ?_ ?_
  · refine filterMap_zipIdx_congr 0 (hframe.params.imp fun p p' hk => ?_)
    unfold Selection.hasParam
    rw [hk.state, hk.stage]
  · simp only [select, hframe.equations]

/-- What has the form of the linearization of a part, and has only moved since, is one of the
part. -/
theorem covers_of_sameForm (hwritten : (s.linearize sel).1 = true) (hframe : Frame moved s t)
    (hform : (s.linearize sel).2.linearization.SameForm t.linearization) : Covers sel t := by
  obtain ⟨_, hlinearized⟩ := s.linearize_spec (fun _ _ => False) sel
  obtain ⟨hcolumns, hrows, hexprs⟩ := hlinearized hwritten
  refine ⟨?_, ?_, ?_⟩
  · rw [hform.columns, hcolumns, select_eq_of_frame hframe]
  · rw [hform.rows, hrows, select_eq_of_frame hframe]
  · rw [hform.residualExprs, hexprs, select_eq_of_frame hframe, hframe.equations]
    exact List.filterMap_congr fun k _ => by simp only [hframe.slotForm_eq]

/-- A part that has just been linearized is covered. -/
theorem covers_linearize (hwritten : (s.linearize sel).1 = true) :
    Covers sel (s.linearize sel).2 :=
  covers_of_sameForm hwritten (s.linearize_spec (fun _ _ => False) sel).1 ⟨rfl, rfl, rfl, rfl⟩

/-- A part stays covered while unknowns move and the linearization keeps its form. -/
theorem Covers.frame (hs : Covers sel s) (hframe : Frame moved s s')
    (hform : s.linearization.SameForm s'.linearization) : Covers sel s' := by
  refine ⟨?_, ?_, ?_⟩
  · rw [hform.columns, hs.columns, select_eq_of_frame hframe]
  · rw [hform.rows, hs.rows, select_eq_of_frame hframe]
  · rw [hform.residualExprs, hs.residualExprs, select_eq_of_frame hframe, hframe.equations]
    exact List.filterMap_congr fun k _ => by simp only [hframe.slotForm_eq]

omit [Scalar α] in
/-- What is picked at every position is picked in its place. -/
theorem getElem?_filterMap_of_forall {β : Type u} {γ : Type v} {f : β → Option γ} :
    ∀ {l : List β}, (∀ x ∈ l, (f x).isSome) → ∀ r : Nat,
      (l.filterMap f)[r]? = l[r]?.bind f
  | [], _, _ => rfl
  | x :: l, hf, r => by
    obtain ⟨y, hy⟩ := Option.isSome_iff_exists.1 (hf x (List.mem_cons_self ..))
    rw [List.filterMap_cons_some hy]
    cases r with
    | zero => exact hy.symm
    | succ r => exact getElem?_filterMap_of_forall (fun z hz => hf z (List.mem_cons_of_mem _ hz)) r

/-- Every row stands for an equation of the part. -/
theorem Covers.equation_of_row (hs : Covers sel s) {row : Nat}
    (hk : s.linearization.rows[row]? = some k) :
    ∃ q, s.equations[k]? = some q ∧ sel.hasEquation q = true := by
  rw [hs.rows] at hk
  exact mem_select_snd.1 (List.mem_of_getElem? hk)

/-- Every equation of the part has a row. -/
theorem Covers.exists_row (hs : Covers sel s) {q : Equation α} (hq : s.equations[k]? = some q)
    (hsel : sel.hasEquation q = true) : ∃ row : Nat, s.linearization.rows[row]? = some k := by
  rw [hs.rows]
  exact List.getElem?_of_mem (mem_select_snd.2 ⟨q, hq, hsel⟩)

/-- Where the residuals are those at the present values, that of a row is the value of the left side
of its equation. -/
theorem Covers.residual_of_row (hs : Covers sel s) (hcurrent : s.Current) {row : Nat}
    {q : Equation α} (hk : s.linearization.rows[row]? = some k)
    (hq : s.equations[k]? = some q) :
    s.linearization.residuals[row]? = some (q.expr.fold.eval (.byHandle s.lookup.value)) := by
  have hsome : ∀ l ∈ (s.select sel).2,
      (s.equations[l]?.map fun q => s.slotForm q.expr).isSome := by
    intro l hl
    obtain ⟨q', hq', _⟩ := mem_select_snd.1 hl
    rw [hq']
    rfl
  rw [hs.rows] at hk
  rw [hcurrent, List.getElem?_map, hs.residualExprs, getElem?_filterMap_of_forall hsome, hk,
    Option.bind_some, hq, Option.map_some, Option.map_some, eval_slotForm]

/-- The residuals at the present values are as many as the rows. -/
theorem Covers.length_residuals (hs : Covers sel s) (hcurrent : s.Current) :
    s.linearization.residuals.length = s.linearization.rows.length := by
  refine Nat.le_antisymm ?_ ?_
  · rw [hcurrent, List.length_map, hs.residualExprs, hs.rows]
    exact List.length_filterMap_le ..
  · by_contra hlt
    rw [Nat.not_le] at hlt
    obtain ⟨k, hk⟩ : ∃ k, s.linearization.rows[s.linearization.residuals.length]? = some k :=
      ⟨_, List.getElem?_eq_getElem hlt⟩
    obtain ⟨q, hq, _⟩ := hs.equation_of_row hk
    have hresidual := hs.residual_of_row hcurrent hk hq
    rw [List.getElem?_eq_none (Nat.le_refl _)] at hresidual
    cases hresidual

/-! ## Iterations -/

/-- How an iteration has stopped without having converged. -/
inductive Stopped (s : EquationSystem α) : Prop
  /-- The step from the point cannot be computed. -/
  | noStep {e : SolverError} (h : s.leastSquaresStep = .error e) (hcurrent : s.Current)
  /-- The step has given an unknown a value that cannot be meant. -/
  | unreasonable (h : s.HasUnreasonable) (hstep : s.leastSquaresStep = .ok s.linearization.step)
  /-- The residuals at the point do not all count as zero. -/
  | rejected (h : s.settings.judge s.linearization.residuals ≠ .converged) (hcurrent : s.Current)

/-- Subtracting a step fails at an unknown that gets a value that cannot be meant. -/
theorem move_eq_false : ∀ {steps : List (Nat × α)} {s : EquationSystem α},
    (s.move steps).1 = false → ∃ e ∈ steps, ∃ p, (s.move steps).2.params[e.1]? = some p ∧
      s.settings.isUnreasonable p.value = true
  | [], _, hmove => nomatch hmove
  | (i, dx) :: rest, s, hmove => by
    rw [move] at hmove ⊢
    cases hp : s.params[i]? with
    | none =>
      simp only [hp] at hmove ⊢
      obtain ⟨e, he, hrest⟩ := move_eq_false hmove
      exact ⟨e, List.mem_cons_of_mem _ he, hrest⟩
    | some p =>
      simp only [hp] at hmove ⊢
      split
      · next hunreasonable =>
        refine ⟨(i, dx), List.mem_cons_self .., { p with value := p.value - dx }, ?_, hunreasonable⟩
        simp [updateParam, hp]
      · next hreasonable =>
        rw [if_neg hreasonable] at hmove
        obtain ⟨e, he, hrest⟩ := move_eq_false hmove
        exact ⟨e, List.mem_cons_of_mem _ he, hrest⟩

/-- A step that fails leaves an unknown of the linearization at a value that cannot be meant, and
the linearization as it was when the step was computed. -/
theorem TakesStep.unreasonable {x : List α} (htake : TakesStep leastSquaresStep s t x false s') :
    Stopped s' := by
  have hcols : ColumnsMove Anything s := fun _ _ _ _ => trivial
  obtain ⟨hframe, hlin, _⟩ := htake.frame hcols
  obtain ⟨hweigh, _⟩ := frame_weigh Anything htake.jacobian
  obtain ⟨e, he, p, hp, hunreasonable⟩ := move_eq_false (congrArg Prod.fst htake.move)
  rw [htake.move] at hp
  refine .unreasonable ⟨e.1, ?_, p, hp, ?_⟩ ?_
  · rw [hlin]
    exact (List.of_mem_zip he).1
  · rw [hframe.settings, ← hweigh.settings]
    exact hunreasonable
  · -- A step is a matter of the linearization, which moving leaves as it is.
    simp only [leastSquaresStep, hlin]
    exact htake.step

/-- An iteration from a point whose residuals have been evaluated stops in one of three ways, unless
it converges. -/
theorem iterate_stopped : ∀ {further : Nat} {s : EquationSystem α}, s.Current →
    iterate leastSquaresStep further s = .ok (false, s') → Stopped s'
  | further, s, hcurrent, h => by
    cases iterate_round h with
    | stepless hjac hstep =>
      obtain ⟨jacobian, rfl⟩ := evalJacobian_eq_ok hjac
      exact .noStep hstep hcurrent
    | unreasonable htake => exact htake.unreasonable
    | last _ hres hjudge =>
      obtain rfl := evalResiduals_eq_ok hres
      exact .rejected (fun hconverged => Bool.false_ne_true (hjudge.2 hconverged)) rfl
    | again _ hres _ hfurther hrest =>
      obtain rfl := evalResiduals_eq_ok hres
      subst hfurther
      refine iterate_stopped ?_ hrest
      rfl

/-- Newton's iteration stops in one of the three ways, unless it converges. -/
theorem newton_stopped (h : s.newton = .ok (false, s')) : Stopped s' := by
  unfold newton newtonWith at h
  obtain ⟨t, hres, h⟩ := bind_eq_ok.1 h
  have hcurrent : t.Current := by
    obtain rfl := evalResiduals_eq_ok hres
    rfl
  exact iterate_stopped hcurrent h

/-- An iteration moves unknowns, and leaves the linearization that of the same part. -/
theorem frame_newton {b : Bool} (h : s.newton = .ok (b, s')) :
    Frame Anything s s' ∧ s.linearization.SameForm s'.linearization := by
  have hiterated : Iterated Anything s b s' := iterated_newton (fun _ _ _ _ => trivial) h
  exact ⟨hiterated.frame, hiterated.sameForm⟩

/-! ## Equations of one unknown -/

/-- A part that may not be linearized leaves no linearization. -/
theorem linearization_linearize (hunwritten : (s.linearize sel).1 = false) :
    (s.linearize sel).2.linearization = .empty := by
  revert hunwritten
  unfold linearize
  obtain ⟨columns, rows⟩ := s.select sel
  simp only
  split
  · exact fun _ => rfl
  · exact nofun

/-- An equation that fixes an unknown alone cannot be linearized, or its iteration stops, or the
value that it has in closed form cannot be meant. -/
theorem solveAlone_stopped {e : Expr α} {p : Param α} (hp : s.params[i]? = some p)
    (hstate : p.state = .solvedAlone) (hstage : p.stage = stage)
    (hsolve : s.solveAlone e h i stage = .ok (false, s')) :
    s'.linearization = .empty ∨
      Covers (.alone stage) s' ∧ (s'.HasUnreasonable ∨ s'.Stopped) := by
  cases solveAlone_cases hsolve with
  | @rejected x written t _ _ _ hunreasonable hlinearize hres =>
    obtain ⟨hframe, _⟩ := (s.updateParam i fun p => { p with value := x }).linearize_spec
      (fun _ _ => False) (.alone stage)
    rw [hlinearize] at hframe
    cases written with
    | false =>
      obtain rfl := hres.2 rfl
      have hempty := linearization_linearize (congrArg Prod.fst hlinearize)
      rw [hlinearize] at hempty
      exact Or.inl hempty
    | true =>
      have hcovers := covers_linearize (congrArg Prod.fst hlinearize)
      rw [hlinearize] at hcovers
      obtain ⟨heval, hform, _⟩ := frame_evalResiduals (fun _ _ => False) (hres.1 rfl)
      have hreached := hcovers.frame heval hform
      have hx : (s.updateParam i fun p => { p with value := x }).params[i]? =
          some { p with value := x } := by
        simp [updateParam, hp]
      obtain ⟨p', hp', hk⟩ := (hframe.trans heval).kept hx
      refine Or.inr ⟨hreached, Or.inl ⟨i, ?_, p', hp', ?_⟩⟩
      · rw [hreached.columns, mem_select_fst]
        exact ⟨p', hp', by simp [Selection.hasParam, hk.state, hk.stage, hstate, hstage]⟩
      · rw [(hframe.trans heval).settings, hk.value id]
        exact hunreasonable
  | unwritten _ hlinearize =>
    have hempty := linearization_linearize (congrArg Prod.fst hlinearize)
    rw [hlinearize] at hempty
    exact Or.inl hempty
  | iterated _ hlinearize hnewton =>
    have hcovers := covers_linearize (congrArg Prod.fst hlinearize)
    rw [hlinearize] at hcovers
    obtain ⟨hframe, hform⟩ := frame_newton hnewton
    exact Or.inr ⟨hcovers.frame hframe hform, Or.inr (newton_stopped hnewton)⟩

/-- A pass over the equations of one unknown that fails has stopped at one of them. -/
theorem solveSingletons_stopped (hrun : s.solveSingletons = .ok (false, s')) :
    s'.linearization = .empty ∨
      ∃ stage, Covers (.alone stage) s' ∧ (s'.HasUnreasonable ∨ s'.Stopped) := by
  rcases solveAloneFrom_cases (P := fun _ _ => True) (fun _ _ _ _ => trivial) trivial hrun with
    ⟨hsolved, _⟩ | ⟨_, stage, t, k, q, h, i, _, hq, hfix, hsolve⟩
  · cases hsolved
  · obtain ⟨_, _, _, p, hp, _⟩ := fixedAlone?_eq_some hfix
    refine (solveAlone_stopped (params_setAside_self hp) rfl rfl hsolve).imp id fun hstopped => ?_
    exact ⟨stage, hstopped⟩

end

end SketchSolver.EquationSystem
