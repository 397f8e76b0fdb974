import SketchSolver.EquationSystem.Newton
import SketchSolver.EquationSystem.Rank
import SketchSolver.Proofs.EquationSystem.Frame

/-!
# What an iteration moves

Newton's iteration gives values to the unknowns that the columns of its linearization stand for, and
changes nothing else (`iterated_newton`). If it converges, the residuals it leaves are those of the
rows at the point it has reached, and every one of them counts as zero. Linearizing, and testing the
rank, move nothing at all.

What one round of the iteration does is said once (`iterate_round`), and what a whole iteration does
follows by induction on the rounds.
-/

namespace SketchSolver

/-- A composed computation has a result if both parts have one. -/
theorem bind_eq_ok {x : Except ε β} {f : β → Except ε γ} {r : γ} :
    x >>= f = .ok r ↔ ∃ y, x = .ok y ∧ f y = .ok r := by
  constructor
  · intro h
    cases x with
    | error _ => cases h
    | ok y => exact ⟨y, rfl, h⟩
  · rintro ⟨y, rfl, h⟩
    exact h

/-- A computation that is known to have a result has it. -/
theorem toOption_eq_some {x : Except ε β} {y : β} : x.toOption = some y ↔ x = .ok y := by
  cases x <;> simp [Except.toOption]

/-- The positions of the elements of a kind. -/
theorem filterMap_zipIdx_eq_map_snd (p : β → Bool) (l : List β) :
    (l.zipIdx.filterMap fun (x, i) => if p x then some i else none) =
      (l.zipIdx.filter fun e => p e.1).map Prod.snd := by
  rw [← List.filterMap_eq_map, ← List.filterMap_eq_filter, List.filterMap_filterMap]
  refine List.filterMap_congr fun e _ => ?_
  cases he : p e.1 <;> simp [Option.guard, he]

/-- Positions that are picked ascend. -/
theorem pairwise_filterMap_zipIdx (p : β → Bool) (l : List β) :
    (l.zipIdx.filterMap fun (x, i) => if p x then some i else none).Pairwise (· < ·) := by
  rw [filterMap_zipIdx_eq_map_snd]
  refine List.Pairwise.sublist (List.Sublist.map Prod.snd List.filter_sublist) ?_
  rw [List.zipIdx_map_snd]
  exact List.pairwise_lt_range'

/-- As many positions are picked as there are elements of the kind. -/
theorem length_filterMap_zipIdx (p : β → Bool) (l : List β) :
    (l.zipIdx.filterMap fun (x, i) => if p x then some i else none).length = l.countP p := by
  rw [filterMap_zipIdx_eq_map_snd, List.length_map, ← List.countP_eq_length_filter]
  have hmap : l.zipIdx.countP (fun e => p e.1) = (l.zipIdx.map Prod.fst).countP p :=
    (List.countP_map ..).symm
  rw [hmap, List.zipIdx_map_fst]

/-- If all elements are of the kind, all positions are picked. -/
theorem filterMap_zipIdx_eq_range {p : β → Bool} {l : List β} (hall : ∀ x ∈ l, p x = true) :
    (l.zipIdx.filterMap fun (x, i) => if p x then some i else none) = List.range l.length := by
  have hkeep : l.zipIdx.filter (fun e => p e.1) = l.zipIdx := by
    refine List.filter_eq_self.2 fun e he => hall e.1 ?_
    exact List.mem_of_getElem? (List.mem_zipIdx_iff_getElem?.1 he)
  rw [filterMap_zipIdx_eq_map_snd, hkeep, List.zipIdx_map_snd, List.range_eq_range']

/-- Two linearizations are of the same part of a system, and differ in values only. -/
structure Linearization.SameForm (l l' : Linearization α) : Prop where
  columns : l'.columns = l.columns
  rows : l'.rows = l.rows
  partials : l'.partials = l.partials
  residualExprs : l'.residualExprs = l.residualExprs

/-- To be of the same part is transitive. -/
theorem Linearization.SameForm.trans {l l' l'' : Linearization α} (h : l.SameForm l')
    (h' : l'.SameForm l'') : l.SameForm l'' where
  columns := h'.columns.trans h.columns
  rows := h'.rows.trans h.rows
  partials := h'.partials.trans h.partials
  residualExprs := h'.residualExprs.trans h.residualExprs

namespace EquationSystem

variable {s s' : EquationSystem α} {moved : ParamState → Nat → Prop}

/-! ## Parts of a system -/

/-- The unknowns of a part, by position. -/
theorem mem_select_fst {sel : Selection} {i : Nat} :
    i ∈ (s.select sel).1 ↔ ∃ p, s.params[i]? = some p ∧ sel.hasParam p = true := by
  simp only [select, List.mem_filterMap, Prod.exists, List.mem_zipIdx_iff_getElem?,
    Option.ite_none_right_eq_some, Option.some.injEq]
  constructor
  · rintro ⟨p, _, hp, hsel, rfl⟩
    exact ⟨p, hp, hsel⟩
  · rintro ⟨p, hp, hsel⟩
    exact ⟨p, i, hp, hsel, rfl⟩

/-- The equations of a part, by position. -/
theorem mem_select_snd {sel : Selection} {k : Nat} :
    k ∈ (s.select sel).2 ↔ ∃ q, s.equations[k]? = some q ∧ sel.hasEquation q = true := by
  simp only [select, List.mem_filterMap, Prod.exists, List.mem_zipIdx_iff_getElem?,
    Option.ite_none_right_eq_some, Option.some.injEq]
  constructor
  · rintro ⟨q, _, hq, hsel, rfl⟩
    exact ⟨q, hq, hsel⟩
  · rintro ⟨q, hq, hsel⟩
    exact ⟨q, k, hq, hsel, rfl⟩

/-- A part has the unknowns and the equations that are in it. -/
theorem length_select (s : EquationSystem α) (sel : Selection) :
    (s.select sel).1.length = s.params.countP sel.hasParam ∧
      (s.select sel).2.length = s.equations.countP sel.hasEquation :=
  ⟨length_filterMap_zipIdx _ _, length_filterMap_zipIdx _ _⟩

/-- A part has its unknowns and its equations in the order of their tables. -/
theorem pairwise_select (s : EquationSystem α) (sel : Selection) :
    (s.select sel).1.Pairwise (· < ·) ∧ (s.select sel).2.Pairwise (· < ·) :=
  ⟨pairwise_filterMap_zipIdx _ _, pairwise_filterMap_zipIdx _ _⟩

/-- No unknown and no equation is in a part twice. -/
theorem nodup_select (s : EquationSystem α) (sel : Selection) :
    (s.select sel).1.Nodup ∧ (s.select sel).2.Nodup :=
  ⟨(s.pairwise_select sel).1.imp Nat.ne_of_lt, (s.pairwise_select sel).2.imp Nat.ne_of_lt⟩

/-! ## Marks -/

/-- Setting the marks of columns moves nothing. -/
theorem frame_markColumns (js : List Nat) (s : EquationSystem α) :
    Frame moved s (js.foldl (fun s j =>
      match s.linearization.columns[j]? with
      | some i => s.updateParam i fun p => { p with free := true }
      | none => s) s) := by
  induction js generalizing s with
  | nil => exact .refl moved s
  | cons j js ih =>
    rw [List.foldl_cons]
    refine Frame.trans ?_ (ih _)
    split
    · exact .updateParam fun _ _ => ⟨rfl, rfl, rfl, rfl, fun _ => rfl⟩
    · exact .refl moved s

section
variable [Scalar α]

/-! ## Evaluating a linearization -/

/-- Evaluating the Jacobian changes nothing but its values. -/
theorem evalJacobian_eq_ok (h : s.evalJacobian = .ok s') :
    ∃ jacobian, s' = { s with linearization := { s.linearization with jacobian } } := by
  unfold evalJacobian at h
  obtain ⟨values, _, h⟩ := bind_eq_ok.1 h
  cases h
  exact ⟨_, rfl⟩

/-- Evaluating the residuals changes nothing but their values, which are those of the rows. -/
theorem evalResiduals_eq_ok (h : s.evalResiduals = .ok s') :
    s' = { s with linearization := { s.linearization with
      residuals := s.linearization.residualExprs.map (·.eval s.lookup) } } := by
  unfold evalResiduals at h
  obtain ⟨residuals, hval, h⟩ := bind_eq_ok.1 h
  unfold values at hval
  split at hval
  · cases hval
    cases h
    rfl
  · cases hval

/-- Evaluating the residuals moves nothing. -/
theorem frame_evalResiduals (moved : ParamState → Nat → Prop) (h : s.evalResiduals = .ok s') :
    Frame moved s s' ∧ s.linearization.SameForm s'.linearization ∧ StaysReasonable s s' := by
  obtain rfl := evalResiduals_eq_ok h
  exact ⟨.of_eq rfl rfl rfl rfl rfl rfl, ⟨rfl, rfl, rfl, rfl⟩, .of_eq rfl⟩

/-- Testing the rank moves nothing, and changes no residual. -/
theorem testRank_eq_ok (moved : ParamState → Nat → Prop) {b : Bool}
    (h : s.testRank = .ok (b, s')) :
    Frame moved s s' ∧ s.linearization.SameForm s'.linearization ∧
      s'.linearization.residuals = s.linearization.residuals := by
  unfold testRank at h
  obtain ⟨t, hjac, h⟩ := bind_eq_ok.1 h
  obtain ⟨jacobian, rfl⟩ := evalJacobian_eq_ok hjac
  cases h
  exact ⟨.of_eq rfl rfl rfl rfl rfl rfl, ⟨rfl, rfl, rfl, rfl⟩, rfl⟩

/-- Linearizing a part of the system changes nothing but the linearization. -/
theorem linearize_snd (s : EquationSystem α) (sel : Selection) :
    (s.linearize sel).2 = { s with linearization := (s.linearize sel).2.linearization } := by
  unfold linearize
  obtain ⟨columns, rows⟩ := s.select sel
  simp only
  split <;> rfl

/-- Linearizing keeps the unknowns. -/
theorem params_linearize (s : EquationSystem α) (sel : Selection) :
    (s.linearize sel).2.params = s.params := by
  rw [linearize_snd]

/-- Linearizing a part of the system moves nothing; if it is done, the columns are the unknowns of
the part and the rows are its equations. -/
theorem linearize_spec (moved : ParamState → Nat → Prop) (s : EquationSystem α)
    (sel : Selection) :
    Frame moved s (s.linearize sel).2 ∧ ((s.linearize sel).1 = true →
      (s.linearize sel).2.linearization.columns = (s.select sel).1 ∧
      (s.linearize sel).2.linearization.rows = (s.select sel).2 ∧
      (s.linearize sel).2.linearization.residualExprs =
        (s.select sel).2.filterMap fun i => s.equations[i]?.map fun q => s.slotForm q.expr) := by
  unfold linearize
  obtain ⟨columns, rows⟩ := s.select sel
  simp only
  split
  · exact ⟨.of_eq rfl rfl rfl rfl rfl rfl, fun h => nomatch h⟩
  · exact ⟨.of_eq rfl rfl rfl rfl rfl rfl, fun _ => ⟨rfl, rfl, rfl⟩⟩

/-! ## The iteration -/

/-- The residuals are judged one by one. -/
theorem judge_eq_converged {settings : Settings α} {l : List α} :
    settings.judge l = .converged ↔ ∀ b ∈ l, settings.isUnreasonable b = false ∧
      ¬ settings.convergeTolerance < Scalar.abs b := by
  induction l with
  | nil => simp [Settings.judge]
  | cons b rest ih =>
    rw [Settings.judge, List.forall_mem_cons, ← ih]
    cases settings.isUnreasonable b with
    | true => simp
    | false => by_cases hb : settings.convergeTolerance < Scalar.abs b <;> simp [hb]

/-- The unknowns of the columns are ones that may move. -/
def ColumnsMove (moved : ParamState → Nat → Prop) (s : EquationSystem α) : Prop :=
  ∀ i ∈ s.linearization.columns, ∀ p, s.params[i]? = some p → moved p.state p.stage

omit [Scalar α] in
/-- What keeps the columns and the states of unknowns keeps what the columns are. -/
theorem ColumnsMove.frame {still : ParamState → Nat → Prop} (hcols : ColumnsMove moved s)
    (hf : Frame still s s') (hcolumns : s'.linearization.columns = s.linearization.columns) :
    ColumnsMove moved s' := by
  intro i hi p hp
  rw [hcolumns] at hi
  obtain ⟨p₀, hp₀, hk⟩ := hf.kept_of hp
  rw [hk.state, hk.stage]
  exact hcols i hi p₀ hp₀

omit [Scalar α] in
/-- The columns of a part are ones that may move, if the unknowns of the part are. -/
theorem columnsMove_of_select {still : ParamState → Nat → Prop} {sel : Selection}
    (hf : Frame still s s') (hcolumns : s'.linearization.columns = (s.select sel).1)
    (hmoved : ∀ p : Param α, sel.hasParam p = true → moved p.state p.stage) :
    ColumnsMove moved s' := by
  intro i hi p hp
  rw [hcolumns, mem_select_fst] at hi
  obtain ⟨p₀, hp₀, hsel⟩ := hi
  obtain ⟨p₁, hp₁, hk⟩ := hf.kept_of hp
  rw [hp₀] at hp₁
  cases hp₁
  rw [hk.state, hk.stage]
  exact hmoved p₀ hsel

/-- Subtracting a step moves the unknowns at its positions, to values that can be meant unless it
fails. -/
theorem frame_move : ∀ {steps : List (Nat × α)} {s : EquationSystem α},
    (∀ e ∈ steps, ∀ p, s.params[e.1]? = some p → moved p.state p.stage) →
      Frame moved s (s.move steps).2 ∧ (s.move steps).2.linearization = s.linearization ∧
        ((s.move steps).1 = true → StaysReasonable s (s.move steps).2)
  | [], s, _ => ⟨.refl moved s, rfl, fun _ => .of_eq rfl⟩
  | (i, dx) :: rest, s, hsteps => by
    have hrest := fun e he => hsteps e (List.mem_cons_of_mem _ he)
    rw [move]
    cases hp : s.params[i]? with
    | none => exact frame_move hrest
    | some p =>
      have hone : Frame moved s (s.updateParam i fun p' => { p' with value := p.value - dx }) :=
        .updateParam fun p' hp' => ⟨rfl, rfl, rfl, rfl, fun hm =>
          absurd (hsteps (i, dx) (List.mem_cons_self ..) p' hp') hm⟩
      simp only
      split
      · exact ⟨hone, rfl, nofun⟩
      · next hreason =>
        have hstay : StaysReasonable s
            (s.updateParam i fun p' => { p' with value := p.value - dx }) :=
          .updateParam fun _ => Bool.eq_false_iff.2 hreason
        have hrest' : ∀ e ∈ rest, ∀ p', (s.updateParam i fun p' =>
            { p' with value := p.value - dx }).params[e.1]? = some p' →
              moved p'.state p'.stage := by
          intro e he p' hp'
          obtain ⟨p₀, hp₀, hk⟩ := hone.kept_of hp'
          rw [hk.state, hk.stage]
          exact hrest e he p₀ hp₀
        obtain ⟨hframe, hlin, hreasonable⟩ := frame_move hrest'
        exact ⟨hone.trans hframe, hlin, fun hb => hstay.trans hone.settings (hreasonable hb)⟩

/-! ## Rounds of the iteration -/

/-- The system with a step kept in its linearization. -/
def keepStep (s : EquationSystem α) (x : List α) : EquationSystem α :=
  { s with linearization := { s.linearization with step := x } }

/-- The step `x` has been computed where `t` has the Jacobian of `s`, and leads to `s'`, unless an
unknown gets a value that cannot be meant. -/
structure TakesStep (step : EquationSystem α → Except SolverError (List α))
    (s t : EquationSystem α) (x : List α) (reasonable : Bool) (s' : EquationSystem α) : Prop where
  jacobian : s.evalJacobian = .ok t
  step : step t.weigh = .ok x
  move : (t.weigh.keepStep x).move (t.weigh.linearization.columns.zip x) = (reasonable, s')

/-- What one round of an iteration does. -/
inductive Round (step : EquationSystem α → Except SolverError (List α)) (further : Nat)
    (s : EquationSystem α) : Bool → EquationSystem α → Prop
  /-- There is no step. -/
  | stepless {t : EquationSystem α} {e : SolverError} (hjac : s.evalJacobian = .ok t)
      (hstep : step t.weigh = .error e) : Round step further s false t.weigh
  /-- The step leads to a value that cannot be meant. -/
  | unreasonable {t s' : EquationSystem α} {x : List α} (htake : TakesStep step s t x false s') :
      Round step further s false s'
  /-- The iteration ends at the point that the step leads to. -/
  | last {t s₁ s' : EquationSystem α} {x : List α} {b : Bool} (htake : TakesStep step s t x true s₁)
      (hres : s₁.evalResiduals = .ok s')
      (hjudge : b = true ↔ s'.settings.judge s'.linearization.residuals = .converged)
      (hlast : s'.settings.judge s'.linearization.residuals = .unconverged → further = 0) :
      Round step further s b s'
  /-- The iteration goes on from the point that the step leads to. -/
  | again {t s₁ s₂ s' : EquationSystem α} {x : List α} {n : Nat} {b : Bool}
      (htake : TakesStep step s t x true s₁) (hres : s₁.evalResiduals = .ok s₂)
      (hjudge : s₂.settings.judge s₂.linearization.residuals = .unconverged)
      (hfurther : further = n + 1) (hrest : iterate step n s₂ = .ok (b, s')) :
      Round step further s b s'

section
variable {step : EquationSystem α → Except SolverError (List α)} {t : EquationSystem α}
  {x : List α} {further : Nat} {b : Bool}

/-- An iteration begins with a round. -/
theorem iterate_round (h : iterate step further s = .ok (b, s')) : Round step further s b s' := by
  unfold iterate at h
  obtain ⟨t, hjac, h⟩ := bind_eq_ok.1 h
  cases hx : step t.weigh with
  | error e =>
    simp only [hx] at h
    cases h
    exact .stepless hjac hx
  | ok x =>
    cases hmove : (t.weigh.keepStep x).move (t.weigh.linearization.columns.zip x) with
    | mk reasonable s₁ =>
      have htake : TakesStep step s t x reasonable s₁ := ⟨hjac, hx, hmove⟩
      unfold keepStep at hmove
      simp only [hx, hmove] at h
      cases reasonable with
      | false =>
        cases h
        exact .unreasonable htake
      | true =>
        obtain ⟨s₂, hres, h⟩ := bind_eq_ok.1 h
        cases hjudge : s₂.settings.judge s₂.linearization.residuals with
        | blownUp =>
          simp only [hjudge] at h
          cases h
          exact .last htake hres (iff_of_false nofun (by simp [hjudge])) (by simp [hjudge])
        | converged =>
          simp only [hjudge] at h
          cases h
          exact .last htake hres (iff_of_true rfl hjudge) (by simp [hjudge])
        | unconverged =>
          simp only [hjudge] at h
          cases further with
          | zero =>
            cases h
            exact .last htake hres (iff_of_false nofun (by simp [hjudge])) fun _ => rfl
          | succ n => exact .again htake hres hjudge rfl h

/-- What an iteration from `s` to `s'` does, by whether it has converged. -/
structure Iterated (moved : ParamState → Nat → Prop) (s : EquationSystem α) (converged : Bool)
    (s' : EquationSystem α) : Prop where
  frame : Frame moved s s'
  sameForm : s.linearization.SameForm s'.linearization
  residuals : converged = true → s'.linearization.residuals =
    s.linearization.residualExprs.map (·.eval s'.lookup)
  judged : converged = true → s.settings.judge s'.linearization.residuals = .converged
  reasonable : converged = true → StaysReasonable s s'

/-- Of an iteration that has not converged, nothing is asked of the residuals. -/
theorem Iterated.unconverged (hframe : Frame moved s s')
    (hform : s.linearization.SameForm s'.linearization) : Iterated moved s false s' :=
  ⟨hframe, hform, nofun, nofun, nofun⟩

/-- Evaluating the Jacobian and weighing the columns moves nothing. -/
theorem frame_weigh (moved : ParamState → Nat → Prop) (hjac : s.evalJacobian = .ok t) :
    Frame moved s t.weigh ∧ s.linearization.SameForm t.weigh.linearization ∧
      t.weigh.params = s.params := by
  obtain ⟨jacobian, rfl⟩ := evalJacobian_eq_ok hjac
  exact ⟨.of_eq rfl rfl rfl rfl rfl rfl, ⟨rfl, rfl, rfl, rfl⟩, rfl⟩

/-- A step moves the unknowns of the columns, to values that can be meant unless it fails. -/
theorem TakesStep.frame (htake : TakesStep step s t x b s') (hcols : ColumnsMove moved s) :
    Frame moved s s' ∧ s'.linearization = (t.weigh.keepStep x).linearization ∧
      (b = true → StaysReasonable s s') := by
  obtain ⟨hframe, hform, hparams⟩ := frame_weigh moved htake.jacobian
  have hkeep : Frame moved t.weigh (t.weigh.keepStep x) := .of_eq rfl rfl rfl rfl rfl rfl
  have hcols' : ColumnsMove moved (t.weigh.keepStep x) :=
    hcols.frame (hframe.trans hkeep) hform.columns
  have hsteps : ∀ e ∈ t.weigh.linearization.columns.zip x, ∀ p,
      (t.weigh.keepStep x).params[e.1]? = some p → moved p.state p.stage := fun e he =>
    hcols' e.1 (List.of_mem_zip he).1
  obtain ⟨hmoved, hlin, hreasonable⟩ := frame_move hsteps
  rw [htake.move] at hmoved hlin hreasonable
  have hstart : StaysReasonable s (t.weigh.keepStep x) := .of_eq hparams
  exact ⟨(hframe.trans hkeep).trans hmoved, hlin, fun hb =>
    hstart.trans (hframe.trans hkeep).settings (hreasonable hb)⟩

/-- A step keeps the part that is linearized. -/
theorem TakesStep.sameForm (htake : TakesStep step s t x b s') :
    s.linearization.SameForm s'.linearization := by
  have hcols : ColumnsMove (fun _ _ => True) s := fun _ _ _ _ => trivial
  obtain ⟨_, hform, _⟩ := frame_weigh (fun _ _ => True) htake.jacobian
  rw [(htake.frame hcols).2.1]
  exact hform.trans ⟨rfl, rfl, rfl, rfl⟩

/-- A step whose residuals are evaluated leads to a point where it may be taken again. -/
theorem TakesStep.evalResiduals {s₂ : EquationSystem α} (htake : TakesStep step s t x true s')
    (hcols : ColumnsMove moved s) (hres : s'.evalResiduals = .ok s₂) :
    Frame moved s s₂ ∧ s.linearization.SameForm s₂.linearization ∧ StaysReasonable s s₂ ∧
      s₂.linearization.residuals = s.linearization.residualExprs.map (·.eval s₂.lookup) := by
  obtain ⟨hframe, _, hreasonable⟩ := htake.frame hcols
  obtain ⟨heval, hform, hlast⟩ := frame_evalResiduals moved hres
  refine ⟨hframe.trans heval, htake.sameForm.trans hform,
    (hreasonable rfl).trans hframe.settings hlast, ?_⟩
  obtain rfl := evalResiduals_eq_ok hres
  rw [← htake.sameForm.residualExprs]
  rfl

/-- One step of an iteration moves the unknowns of the columns. It is the last one, or the iteration
goes on from where it ends. -/
theorem iterate_cases (hcols : ColumnsMove moved s) (h : iterate step further s = .ok (b, s')) :
    Iterated moved s b s' ∨ ∃ s₁ n, Iterated moved s false s₁ ∧ StaysReasonable s s₁ ∧
      iterate step n s₁ = .ok (b, s') ∧ further = n + 1 := by
  cases iterate_round h with
  | stepless hjac _ =>
    obtain ⟨hframe, hform, _⟩ := frame_weigh moved hjac
    exact Or.inl (.unconverged hframe hform)
  | unreasonable htake => exact Or.inl (.unconverged (htake.frame hcols).1 htake.sameForm)
  | last htake hres hjudge =>
    obtain ⟨hframe, hform, hreasonable, hresiduals⟩ := htake.evalResiduals hcols hres
    rw [hframe.settings] at hjudge
    exact Or.inl ⟨hframe, hform, fun _ => hresiduals, hjudge.1, fun _ => hreasonable⟩
  | again htake hres _ hfurther hrest =>
    obtain ⟨hframe, hform, hreasonable, _⟩ := htake.evalResiduals hcols hres
    exact Or.inr ⟨_, _, .unconverged hframe hform, hreasonable, hrest, hfurther⟩

end

/-- What a step has done, the rest of the iteration goes on with. -/
theorem Iterated.trans {s₁ : EquationSystem α} {b : Bool} (h : Iterated moved s false s₁)
    (hreason : StaysReasonable s s₁) (h' : Iterated moved s₁ b s') : Iterated moved s b s' where
  frame := h.frame.trans h'.frame
  sameForm := h.sameForm.trans h'.sameForm
  residuals hb := by rw [h'.residuals hb, h.sameForm.residualExprs]
  judged hb := by rw [← h.frame.settings, h'.judged hb]
  reasonable hb := hreason.trans h.frame.settings (h'.reasonable hb)

/-- An iteration moves the unknowns of its columns, and has converged where all residuals count as
zero. -/
theorem iterated_iterate {step : EquationSystem α → Except SolverError (List α)} {b : Bool} :
    ∀ {further : Nat} {s : EquationSystem α}, ColumnsMove moved s →
      iterate step further s = .ok (b, s') → Iterated moved s b s'
  | further, s, hcols, h => by
    rcases iterate_cases hcols h with hlast | ⟨s₁, n, hone, hreason, hrest, rfl⟩
    · exact hlast
    · have hcols₁ := hcols.frame hone.frame hone.sameForm.columns
      exact hone.trans hreason (iterated_iterate hcols₁ hrest)

/-- Newton's iteration moves the unknowns of its columns, and has converged where all residuals
count as zero. -/
theorem iterated_newton {b : Bool} (hcols : ColumnsMove moved s) (h : s.newton = .ok (b, s')) :
    Iterated moved s b s' := by
  unfold newton newtonWith at h
  obtain ⟨t, hres, h⟩ := bind_eq_ok.1 h
  obtain ⟨hframe, hform, hreason⟩ := frame_evalResiduals moved hres
  have hone : Iterated moved s false t := .unconverged hframe hform
  exact hone.trans hreason (iterated_iterate (hcols.frame hframe hform.columns) h)

/-- Marking free unknowns moves nothing. -/
theorem frame_markFree {find : Bool} (h : s.markFree find = .ok s') : Frame moved s s' := by
  unfold markFree at h
  have hclear : Frame moved s { s with params := s.params.map fun p => { p with free := false } } :=
    ⟨rfl, rfl, rfl, rfl, rfl, List.forall₂_map_right_iff.2 (List.forall₂_same.2 fun _ _ =>
      ⟨rfl, rfl, rfl, rfl, fun _ => rfl⟩)⟩
  cases find with
  | false =>
    cases h
    exact hclear
  | true =>
    generalize ({ s with params := s.params.map fun p => { p with free := false } } :
      EquationSystem α) = t at h hclear
    have hlinearize := (t.linearize_spec moved .live).1
    simp only [Bool.not_true, Bool.false_eq_true, if_false] at h
    generalize t.linearize .live = out at h hlinearize
    obtain ⟨written, t₁⟩ := out
    cases written with
    | false =>
      cases h
      exact hclear.trans hlinearize
    | true =>
      obtain ⟨t₂, hjac, h⟩ := bind_eq_ok.1 h
      obtain ⟨jacobian, rfl⟩ := evalJacobian_eq_ok hjac
      cases h
      refine hclear.trans (hlinearize.trans (Frame.trans ?_ (frame_markColumns _ _)))
      exact .of_eq rfl rfl rfl rfl rfl rfl

end

end EquationSystem

end SketchSolver
