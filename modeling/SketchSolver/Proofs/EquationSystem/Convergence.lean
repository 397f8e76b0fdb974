import SketchSolver.Proofs.EquationSystem.Step
import SketchSolver.Proofs.EquationSystem.Stopping

/-!
# What convergence says

Newton's iteration is a loop that counts its steps (`Loop`). It ends after one step more than it may
go on for (`Loop.steps_le`), and at a point where all residuals count as zero if it has converged,
where they are those at this very point and the unknowns have values that can be meant
(`Loop.converged`). It moves the unknowns of its columns, and changes nothing else but the
linearization (`Loop.movesOnly`). None of this depends on the arithmetic or on how the steps are
computed, as long as every column gets one (`newtonWith_correct`).
-/

namespace SketchSolver.EquationSystem

variable {s s' s'' t : EquationSystem α} {columns : List Nat} {i : Nat}

/-! ## What may move -/

/-- The system is as it was, but for the values of the unknowns at the given positions and for the
linearization. -/
structure MovesOnly (columns : List Nat) (s s' : EquationSystem α) : Prop where
  rest : s' = { s with params := s'.params, linearization := s'.linearization }
  length : s'.params.length = s.params.length
  kept : ∀ {i p}, s.params[i]? = some p →
    ∃ x, s'.params[i]? = some { p with value := x } ∧ (i ∉ columns → x = p.value)

/-- Another linearization moves nothing. -/
theorem MovesOnly.of_linearization (columns : List Nat) (s : EquationSystem α)
    (lin : Linearization α) : MovesOnly columns s { s with linearization := lin } where
  rest := rfl
  length := rfl
  kept {_ p} hp := ⟨p.value, hp, fun _ => rfl⟩

/-- Nothing moves where nothing changes. -/
theorem MovesOnly.refl (columns : List Nat) (s : EquationSystem α) : MovesOnly columns s s :=
  .of_linearization columns s s.linearization

/-- What moves in one of two steps moves in both together. -/
theorem MovesOnly.trans (h : MovesOnly columns s s') (h' : MovesOnly columns s' s'') :
    MovesOnly columns s s'' where
  rest := by rw [h'.rest, h.rest]
  length := h'.length.trans h.length
  kept hp := by
    obtain ⟨x, hx, hstill⟩ := h.kept hp
    obtain ⟨y, hy, hstill'⟩ := h'.kept hx
    exact ⟨y, hy, fun hi => (hstill' hi).trans (hstill hi)⟩

/-- Giving a value to the unknown of a column moves this one. -/
theorem MovesOnly.setValue (hi : i ∈ columns) (x : α) :
    MovesOnly columns s (s.updateParam i fun p => { p with value := x }) where
  rest := rfl
  length := List.length_modify ..
  kept {j p} hp := by
    by_cases hij : i = j
    · exact ⟨x, by simp [updateParam, hij, hp], fun hj => absurd (hij ▸ hi) hj⟩
    · exact ⟨p.value, by simp [updateParam, hij, hp], fun _ => rfl⟩

/-- An unknown elsewhere is the one it was. -/
theorem MovesOnly.getElem?_params (h : MovesOnly columns s s') (hi : i ∉ columns) :
    s'.params[i]? = s.params[i]? := by
  cases hp : s.params[i]? with
  | none => simpa [h.length] using hp
  | some p =>
    obtain ⟨x, hx, hstill⟩ := h.kept hp
    rw [hx, hstill hi]

section
variable [Scalar α]

/-- Subtracting the step of one unknown. -/
theorem move_cons {dx : α} {rest : List (Nat × α)} {p : Param α} (hp : s.params[i]? = some p) :
    s.move ((i, dx) :: rest) =
      if s.settings.isUnreasonable (p.value - dx) then
        (false, s.updateParam i fun q => { q with value := p.value - dx })
      else (s.updateParam i fun q => { q with value := p.value - dx }).move rest := by
  rw [move, hp]
  rfl

/-- Adding steps to the unknowns of columns moves these. -/
theorem movesOnly_move : ∀ {steps : List (Nat × α)} {s : EquationSystem α},
    (∀ e ∈ steps, e.1 ∈ columns) → MovesOnly columns s (s.move steps).2
  | [], s, _ => .refl columns s
  | (i, dx) :: rest, s, hsteps => by
    obtain ⟨hi, hrest⟩ := List.forall_mem_cons.1 hsteps
    cases hp : s.params[i]? with
    | none =>
      simp only [move, hp]
      exact movesOnly_move hrest
    | some p =>
      have hone := MovesOnly.setValue (s := s) hi (p.value - dx)
      rw [move_cons hp]
      split
      · exact hone
      · exact hone.trans (movesOnly_move hrest)

/-- If subtracting a step does not fail, all unknowns that it is for have values that can be
meant. -/
theorem reasonable_move : ∀ {steps : List (Nat × α)} {s : EquationSystem α},
    (s.move steps).1 = true → ∀ e ∈ steps, ∀ p, s.params[e.1]? = some p →
      ∃ p', (s.move steps).2.params[e.1]? = some p' ∧ s.settings.isUnreasonable p'.value = false
  | (i, dx) :: rest, s, hmove, e, he, p, hp => by
    cases hi : s.params[i]? with
    | none =>
      simp only [move, hi] at hmove ⊢
      rcases List.mem_cons.1 he with rfl | he
      · cases hi.symm.trans hp
      · exact reasonable_move hmove e he p hp
    | some q =>
      rw [move_cons hi] at hmove ⊢
      split at hmove
      · cases hmove
      next hreason =>
      rw [if_neg hreason]
      obtain ⟨x, hx, _⟩ := (MovesOnly.setValue (s := s) (List.mem_singleton_self i)
        (q.value - dx)).kept hp
      rcases List.mem_cons.1 he with rfl | he
      · -- The value has been found to be one that can be meant, and what comes after leaves it so.
        have hanything : ∀ e ∈ rest, ∀ p, (s.updateParam i fun p =>
            { p with value := q.value - dx }).params[e.1]? = some p → Anything p.state p.stage :=
          fun _ _ _ _ => trivial
        obtain ⟨_, _, hstay⟩ := frame_move hanything
        have hself : (s.updateParam i fun p => { p with value := q.value - dx }).params[i]? =
            some { q with value := q.value - dx } := by
          simp [updateParam, hi]
        obtain ⟨p', hp', hvalue⟩ := forall₂_getElem? (hstay hmove) hself
        refine ⟨p', hp', ?_⟩
        rcases hvalue with heq | hvalue
        · rw [heq]
          exact Bool.eq_false_iff.2 hreason
        · exact hvalue
      · exact reasonable_move hmove e he _ hx

/-! ## The loop -/

section
variable {step : EquationSystem α → Except SolverError (List α)} {limit iter n : Nat} {b : Bool}
  {x : List α}

/-- The iteration as a loop that counts. It has gone on `iter` times when it is at `s`, takes `n`
steps from there, and ends at `s'`. It may go on `limit` times. -/
inductive Loop (step : EquationSystem α → Except SolverError (List α)) (limit : Nat) :
    (iter : Nat) → EquationSystem α → (n : Nat) → Bool → EquationSystem α → Prop
  /-- There is no step. -/
  | stepless {iter : Nat} {s t : EquationSystem α} {e : SolverError}
      (hjac : s.evalJacobian = .ok t) (hstep : step t.weigh = .error e) :
      Loop step limit iter s 1 false t.weigh
  /-- The step leads to a value that cannot be meant. -/
  | unreasonable {iter : Nat} {s t s' : EquationSystem α} {x : List α}
      (htake : TakesStep step s t x false s') : Loop step limit iter s 1 false s'
  /-- The iteration ends at the point that the step leads to, since the residuals decide it, or
  since it may not go on. -/
  | last {iter : Nat} {s t s₁ s' : EquationSystem α} {x : List α} {b : Bool}
      (htake : TakesStep step s t x true s₁) (hres : s₁.evalResiduals = .ok s')
      (hjudge : b = true ↔ s'.settings.judge s'.linearization.residuals = .converged)
      (hlimit : s'.settings.judge s'.linearization.residuals = .unconverged → limit ≤ iter) :
      Loop step limit iter s 1 b s'
  /-- The iteration goes on from the point that the step leads to. -/
  | again {iter n : Nat} {s t s₁ s₂ s' : EquationSystem α} {x : List α} {b : Bool}
      (htake : TakesStep step s t x true s₁) (hres : s₁.evalResiduals = .ok s₂)
      (hjudge : s₂.settings.judge s₂.linearization.residuals = .unconverged)
      (hlimit : iter < limit) (hrest : Loop step limit (iter + 1) s₂ n b s') :
      Loop step limit iter s (n + 1) b s'

/-- What is iterated is the loop. -/
theorem loop_iterate : ∀ {further : Nat} {s : EquationSystem α},
    iterate step further s = .ok (b, s') → ∀ iter, ∃ n, Loop step (iter + further) iter s n b s'
  | further, s, h, iter => by
    cases iterate_round h with
    | stepless hjac hstep => exact ⟨1, .stepless hjac hstep⟩
    | unreasonable htake => exact ⟨1, .unreasonable htake⟩
    | last htake hres hjudge hlast =>
      exact ⟨1, .last htake hres hjudge fun hlimit => by rw [hlast hlimit, Nat.add_zero]⟩
    | again htake hres hjudge hfurther hrest =>
      subst hfurther
      obtain ⟨n, hloop⟩ := loop_iterate hrest (iter + 1)
      rw [Nat.add_right_comm] at hloop
      exact ⟨n + 1, .again htake hres hjudge (Nat.lt_add_of_pos_right (Nat.succ_pos _)) hloop⟩

/-- Evaluating the Jacobian and weighing its columns moves nothing. -/
theorem movesOnly_weigh (columns : List Nat) (hjac : s.evalJacobian = .ok t) :
    MovesOnly columns s t.weigh := by
  obtain ⟨jacobian, rfl⟩ := evalJacobian_eq_ok hjac
  exact .of_linearization ..

/-- Evaluating the residuals moves nothing. -/
theorem movesOnly_evalResiduals (columns : List Nat) (hres : s.evalResiduals = .ok s') :
    MovesOnly columns s s' := by
  obtain rfl := evalResiduals_eq_ok hres
  exact .of_linearization ..

/-- A step moves the unknowns of the columns. -/
theorem TakesStep.movesOnly (h : TakesStep step s t x b s') :
    MovesOnly s.linearization.columns s s' := by
  obtain ⟨_, hform, _⟩ := frame_weigh Anything h.jacobian
  have hcolumns : ∀ e ∈ t.weigh.linearization.columns.zip x, e.1 ∈ s.linearization.columns :=
    fun e he => hform.columns ▸ (List.of_mem_zip he).1
  have hmove := movesOnly_move (s := t.weigh.keepStep x) hcolumns
  rw [h.move] at hmove
  exact ((movesOnly_weigh _ h.jacobian).trans (.of_linearization ..)).trans hmove

/-- The loop ends after one step more than it may go on for. -/
theorem Loop.steps_le (h : Loop step limit iter s n b s') (hiter : iter ≤ limit) :
    iter + n ≤ limit + 1 := by
  induction h with
  | stepless | unreasonable | last => exact Nat.succ_le_succ hiter
  | again _ _ _ hlimit _ ih =>
    have hrest := ih hlimit
    omega

/-- However the loop ends, it moves the unknowns of its columns only. -/
theorem Loop.movesOnly (h : Loop step limit iter s n b s') :
    MovesOnly s.linearization.columns s s' ∧ s.linearization.SameForm s'.linearization := by
  induction h with
  | stepless hjac =>
    exact ⟨movesOnly_weigh _ hjac, (frame_weigh Anything hjac).2.1⟩
  | unreasonable htake => exact ⟨htake.movesOnly, htake.sameForm⟩
  | last htake hres =>
    exact ⟨htake.movesOnly.trans (movesOnly_evalResiduals _ hres),
      htake.sameForm.trans (frame_evalResiduals Anything hres).2.1⟩
  | again htake hres _ _ _ ih =>
    have hform := htake.sameForm.trans (frame_evalResiduals Anything hres).2.1
    rw [hform.columns] at ih
    exact ⟨(htake.movesOnly.trans (movesOnly_evalResiduals _ hres)).trans ih.1, hform.trans ih.2⟩

/-- However an iteration ends, it moves the unknowns of its columns only. -/
theorem movesOnly_newton (h : s.newton = .ok (b, s')) :
    MovesOnly s.linearization.columns s s' := by
  unfold newton newtonWith at h
  obtain ⟨t, hres, hiterate⟩ := bind_eq_ok.1 h
  obtain ⟨_, hloop⟩ := loop_iterate hiterate 0
  have hmoves := hloop.movesOnly.1
  rw [(frame_evalResiduals Anything hres).2.1.columns] at hmoves
  exact (movesOnly_evalResiduals _ hres).trans hmoves

/-- The residuals are those at the point, all of them count as zero, and the unknowns of the columns
have values that can be meant. -/
structure Converged (s : EquationSystem α) : Prop where
  current : s.Current
  residuals : ∀ e ∈ s.linearization.residualExprs,
    s.settings.isUnreasonable (e.eval s.lookup) = false ∧
      ¬ s.settings.convergeTolerance < Scalar.abs (e.eval s.lookup)
  columns : ∀ i ∈ s.linearization.columns, ∃ p, s.params[i]? = some p ∧
    s.settings.isUnreasonable p.value = false

/-- Every column gets a step. -/
def GivesSteps (step : EquationSystem α → Except SolverError (List α)) : Prop :=
  ∀ (t : EquationSystem α) (x : List α), step t.weigh = .ok x →
    t.linearization.columns.length ≤ x.length

/-- A step that does not fail leaves the unknowns of the columns at values that can be meant. -/
theorem TakesStep.reasonable (h : TakesStep step s t x true s') (hstep : GivesSteps step)
    (hi : i ∈ s.linearization.columns) (hlt : i < s.params.length) :
    ∃ p, s'.params[i]? = some p ∧ s.settings.isUnreasonable p.value = false := by
  obtain ⟨hframe, hform, hparams⟩ := frame_weigh Anything h.jacobian
  have hzip : (t.weigh.linearization.columns.zip x).map Prod.fst = t.weigh.linearization.columns :=
    List.map_fst_zip (hstep t x h.step)
  rw [← hform.columns, ← hzip] at hi
  obtain ⟨e, he, rfl⟩ := List.mem_map.1 hi
  have hsome : (t.weigh.keepStep x).params[e.1]? = some s.params[e.1] :=
    (congrArg (·[e.1]?) hparams).trans (List.getElem?_eq_getElem hlt)
  obtain ⟨p, hp, hreason⟩ := reasonable_move (congrArg Prod.fst h.move) e he _ hsome
  rw [h.move] at hp
  exact ⟨p, hp, hframe.settings ▸ hreason⟩

omit [Scalar α] in
/-- Where anything may move, the unknowns of the columns may. -/
theorem columnsMove_anything (s : EquationSystem α) : ColumnsMove Anything s :=
  fun _ _ _ _ => trivial

/-- A loop that ends with convergence has converged at the point that it leaves behind. -/
theorem Loop.converged (h : Loop step limit iter s n b s') (hstep : GivesSteps step)
    (hcolumns : ∀ i ∈ s.linearization.columns, i < s.params.length) (hb : b = true) :
    s'.Converged := by
  induction h with
  | stepless | unreasonable => cases hb
  | last htake hres hjudge =>
    obtain ⟨hframe, hform, _⟩ := htake.evalResiduals (columnsMove_anything _) hres
    obtain rfl := evalResiduals_eq_ok hres
    refine ⟨rfl, fun e he => ?_, fun i hi => ?_⟩
    · exact judge_eq_converged.1 (hjudge.1 hb) _ (List.mem_map_of_mem he)
    · have hi := hform.columns ▸ hi
      obtain ⟨p, hp, hreason⟩ := htake.reasonable hstep hi (hcolumns i hi)
      exact ⟨p, hp, hframe.settings ▸ hreason⟩
  | again htake hres _ _ _ ih =>
    obtain ⟨hframe, hform, _⟩ := htake.evalResiduals (columnsMove_anything _) hres
    refine ih ?_ hb
    rw [hform.columns, ← hframe.params.length_eq]
    exact hcolumns

/-- The least squares step has an entry for every column. -/
theorem givesSteps_leastSquaresStep : GivesSteps (leastSquaresStep (α := α)) := by
  intro t x hstep
  rw [leastSquaresStep_eq] at hstep
  split at hstep
  · cases hstep
    exact List.length_replicate.ge
  · split at hstep
    · cases hstep
    · cases hstep
      have hweights : t.weigh.linearization.weights.length = t.linearization.columns.length :=
        List.length_map ..
      have hlines : t.weigh.weighedJacobian.lines.length = t.linearization.columns.length :=
        length_weighedJacobian
      rw [combineRows, List.length_map, List.length_zip, hlines, hweights, Nat.min_self]

end

/-- The iteration gives a verdict after at most one step more than it may go on for. If it has
converged, it has done so at the point that it leaves behind. Either way it moves the unknowns of
its columns only. -/
theorem newtonWith_correct : GivesSteps (leastSquaresStep (α := α)) ∧
    ∀ {step : EquationSystem α → Except SolverError (List α)}, GivesSteps step →
      ∀ {s t : EquationSystem α} {sel : Selection},
        t.params.map (·.handle) = s.params.map (·.handle) →
        (s.linearize sel).2.linearization.SameForm t.linearization →
        ∃ (b : Bool) (t₀ t' : EquationSystem α) (n : Nat), newtonWith step t = .ok (b, t') ∧
          t.evalResiduals = .ok t₀ ∧ Loop step t.settings.maxIterations 0 t₀ n b t' ∧
          n ≤ t.settings.maxIterations + 1 ∧ (b = true → t'.Converged) ∧
          MovesOnly t.linearization.columns t t' ∧
          t.linearization.SameForm t'.linearization := by
  refine ⟨givesSteps_leastSquaresStep, fun {step} hstep {s t sel} hhandles hform => ?_⟩
  have hresolved : t.Resolved :=
    (s.resolved_linearize sel).congr (hhandles.trans (s.params_linearize sel ▸ rfl)) hform
  have hcolumns : ∀ i ∈ t.linearization.columns, i < t.params.length := by
    intro i hi
    have hlength := congrArg List.length hhandles
    rw [List.length_map, List.length_map] at hlength
    rw [hform.columns] at hi
    exact hlength ▸ (s.inRange_linearize sel).columns i hi
  obtain ⟨t₀, hres, hframe, hform₀⟩ := hresolved.yields_evalResiduals
  have hyields : Yields (iterate step t.settings.maxIterations t₀) _ :=
    (hresolved.frame hframe hform₀).yields_iterate
  obtain ⟨⟨b, t'⟩, hiterate, _⟩ := hyields
  obtain ⟨n, hloop⟩ := loop_iterate hiterate 0
  rw [Nat.zero_add] at hloop
  have hmoves := hloop.movesOnly
  rw [hform₀.columns] at hmoves
  have hcolumns₀ : ∀ i ∈ t₀.linearization.columns, i < t₀.params.length := by
    rw [hform₀.columns, ← hframe.params.length_eq]
    exact hcolumns
  refine ⟨b, t₀, t', n, ?run, hres, hloop, ?steps, hloop.converged hstep hcolumns₀,
    (movesOnly_evalResiduals _ hres).trans hmoves.1, hform₀.trans hmoves.2⟩
  case run =>
    unfold newtonWith
    rw [hres]
    exact hiterate
  case steps =>
    have hsteps := hloop.steps_le (Nat.zero_le _)
    rwa [Nat.zero_add] at hsteps

end

/-- Two unknowns that are to have the sum two. -/
def balanced : EquationSystem (Exact ℚ) :=
  { empty Settings.rational with
    params := [{ handle := ⟨1⟩, value := .number 0 }, { handle := ⟨2⟩, value := .number 0 }]
    equations := [
      { handle := ⟨.constraint ⟨1⟩, 0⟩, expr := .param ⟨1⟩ + .param ⟨2⟩ - .const (.number 2) }] }

/-- One step leads both unknowns to one. -/
theorem newton_balanced : GivesSteps (leastSquaresStep (α := Exact ℚ)) ∧
    ((balanced.linearize .live).2.params.map (·.handle) = balanced.params.map (·.handle)) ∧
    (balanced.linearize .live).2.linearization.SameForm
      (balanced.linearize .live).2.linearization ∧
    ∃ t, (balanced.linearize .live).2.newton = .ok (true, t) ∧ t.Converged ∧
      t.params.map (·.value) = [.number 1, .number 1] := by
  have hrun : ((balanced.linearize .live).2.newton.toOption.map fun (b, t) =>
      (b, t.params.map (·.value))) = some (true, [.number 1, .number 1]) := by decide +kernel
  obtain ⟨hsteps, hcorrect⟩ := newtonWith_correct (α := Exact ℚ)
  obtain ⟨b, _, t, _, hnewton, _, _, _, hconverged, _⟩ :=
    hcorrect hsteps (s := balanced) (t := (balanced.linearize .live).2) rfl ⟨rfl, rfl, rfl, rfl⟩
  change newton _ = _ at hnewton
  rw [hnewton] at hrun
  obtain ⟨rfl, hvalues⟩ := Prod.mk.inj (Option.some.inj hrun)
  exact ⟨hsteps, rfl, ⟨rfl, rfl, rfl, rfl⟩, t, hnewton, hconverged rfl, hvalues⟩

end SketchSolver.EquationSystem
