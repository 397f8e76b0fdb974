import SketchSolver.Proofs.Arithmetic.Satisfied
import SketchSolver.Proofs.EquationSystem.Jacobian
import SketchSolver.Proofs.EquationSystem.Step
import SketchSolver.Proofs.EquationSystem.Stopping

/-!
# An iteration at rest

A system is at rest at the values it has if all its equations hold there (`AtRest`). Newton's
iteration takes a step before it judges anything, and that step is zero, or has an undefined
coordinate. So it converges and moves nothing, or fails, by whether all equations of the part are
differentiable with respect to all unknowns of the part (`AtRest.newton`).
-/

namespace SketchSolver

open Exact (IsNumber)

section
variable [Field K] [LinearOrder K] [PartialFunctions K]

/-- The tolerances are not negative, dragged columns are scaled by a number, and a system of one
equation is not too large. -/
structure Settings.Proper (settings : Settings (Exact K)) : Prop where
  tolerance : ∃ x : K, settings.convergeTolerance = .number x ∧ 0 ≤ x
  magnitude : ∃ x : K, settings.unreasonableMagnitude = .number x ∧ 0 ≤ x
  scale : ∃ x : K, settings.draggedColumnScale = .number x
  single : 1 < settings.maxEquations

namespace Settings

variable {settings : Settings (Exact K)}

/-- A value that is not defined cannot be meant. -/
theorem isUnreasonable_undefined : settings.isUnreasonable .undefined = true :=
  rfl

variable [IsStrictOrderedRing K]

/-- Residuals of zero count as zero. -/
theorem Proper.judge_zero (hp : settings.Proper) (n : Nat) :
    settings.judge (List.replicate n 0) = .converged := by
  obtain ⟨tol, htol, htol0⟩ := hp.tolerance
  obtain ⟨mag, hmag, hmag0⟩ := hp.magnitude
  refine EquationSystem.judge_eq_converged.2 fun b hb => ?_
  rw [List.eq_of_mem_replicate hb]
  constructor
  · refine Bool.eq_false_iff.2 fun hlarge => ?_
    have hlt : settings.unreasonableMagnitude < Scalar.abs 0 := of_decide_eq_true hlarge
    rw [hmag] at hlt
    have hlt' : mag < |0| := hlt
    rw [abs_zero] at hlt'
    exact absurd hlt' (not_lt.2 hmag0)
  · intro hlt
    rw [htol] at hlt
    have hlt' : tol < |0| := hlt
    rw [abs_zero] at hlt'
    exact absurd hlt' (not_lt.2 htol0)

end Settings

namespace EquationSystem

variable {s s' t : EquationSystem (Exact K)} {v : ParamHandle → Exact K} {sel : Selection}

/-! ## Systems at rest -/

/-- The system has the values `v`, all of which can be meant, and its equations hold at them. -/
structure AtRest (v : ParamHandle → Exact K) (s : EquationSystem (Exact K)) : Prop where
  proper : s.settings.Proper
  handlesDistinct : s.HandlesDistinct
  value : s.lookup.value = v
  reasonable : ∀ p ∈ s.params, s.settings.isUnreasonable p.value = false
  holds : ∀ q ∈ s.equations, q.expr.eval (.byHandle v) = .number 0
  copied : ∀ p ∈ s.params, p.state = .substituted → ∀ r, p.root = some r → v r = v p.handle

namespace AtRest

/-- A system is at rest with another one, if it has the same unknowns with the same values, and
equations that hold at these values. -/
theorem congr (hs : AtRest v s) (hsettings : s'.settings = s.settings)
    (hforeign : s'.foreign = s.foreign)
    (hparams : List.Forall₂ (fun p p' : Param (Exact K) => p'.handle = p.handle ∧
      p'.value = p.value ∧ (p'.state = .substituted → ∀ r, p'.root = some r → v r = v p.handle))
      s.params s'.params)
    (hequations : ∀ q ∈ s'.equations, q.expr.eval (.byHandle v) = .number 0) : AtRest v s' where
  proper := hsettings ▸ hs.proper
  handlesDistinct := hs.handlesDistinct.congr (map_handle_eq (fun _ _ h => h.1) hparams)
  value := (lookup_value_congr (fun _ _ h => ⟨h.1, h.2.1⟩) hparams hforeign).trans hs.value
  reasonable p' hp' := by
    obtain ⟨p, hp, _, hvalue, _⟩ := forall₂_mem_of hparams hp'
    rw [hsettings, hvalue]
    exact hs.reasonable p hp
  holds := hequations
  copied p' hp' hstate r hr := by
    obtain ⟨p, _, hhandle, _, hcopied⟩ := forall₂_mem_of hparams hp'
    rw [hhandle]
    exact hcopied hstate r hr

/-- What moves nothing leaves a system at rest. -/
theorem frame (hs : AtRest v s) (hframe : Frame (fun _ _ => False) s s') : AtRest v s' := by
  refine hs.congr hframe.settings hframe.foreign ?_ ?_
  · refine forall₂_of_getElem? hframe.length_eq.symm fun i p p' hp hp' => ?_
    obtain ⟨p₁, hp₁, hk⟩ := hframe.kept hp
    obtain rfl := Option.some.inj (hp₁.symm.trans hp')
    refine ⟨hk.handle, hk.value id, fun hstate r hr => ?_⟩
    exact hs.copied p (List.mem_of_getElem? hp) (hk.state ▸ hstate) r (hk.root ▸ hr)
  · rw [hframe.equations]
    exact hs.holds

/-- An unknown has the value that its handle has. -/
theorem param_value (hs : AtRest v s) {p : Param (Exact K)} (hp : p ∈ s.params) :
    p.value = v p.handle := by
  rw [← hs.value, hs.handlesDistinct.value_eq hp]

end AtRest

end EquationSystem

end

namespace EquationSystem

/-! ## Linearizations -/

section
variable [Scalar α] {s t : EquationSystem α} {sel : Selection}

/-- The system `t` is `s` with a part of it linearized, and nothing moved. -/
structure Linearized (sel : Selection) (s t : EquationSystem α) : Prop where
  written : (s.linearize sel).1 = true
  frame : Frame (fun _ _ => False) s t
  sameForm : (s.linearize sel).2.linearization.SameForm t.linearization

/-- A linearization that has just been made is one. -/
theorem linearized_linearize (hwritten : (s.linearize sel).1 = true) :
    Linearized sel s (s.linearize sel).2 :=
  ⟨hwritten, (s.linearize_spec _ sel).1, ⟨rfl, rfl, rfl, rfl⟩⟩

namespace Linearized

/-- The columns, rows and residuals are those of the part. -/
theorem covers (ht : Linearized sel s t) : Covers sel t :=
  covers_of_sameForm ht.written ht.frame ht.sameForm

/-- What has been linearized has its expressions at the positions of their handles. -/
theorem resolved (ht : Linearized sel s t) : t.Resolved := by
  have hframe := (s.linearize_spec (fun _ _ => False) sel).1
  have hresolved := s.resolved_linearize sel
  constructor
  · rw [ht.sameForm.partials, ht.frame.position?_eq, ← hframe.position?_eq]
    exact hresolved.partials
  · rw [ht.sameForm.residualExprs, ht.frame.position?_eq, ← hframe.position?_eq]
    exact hresolved.residualExprs

/-- What has been linearized points to unknowns and equations that are there. -/
theorem inRange (ht : Linearized sel s t) : t.InRange t.linearization := by
  obtain ⟨hcolumns, hrows, hpartials⟩ := s.inRange_linearize sel
  refine ⟨?_, ?_, ?_⟩
  · rw [ht.sameForm.columns, ht.frame.length_eq]
    exact hcolumns
  · rw [ht.sameForm.rows, ht.frame.equations]
    exact hrows
  · rw [ht.sameForm.partials, ht.sameForm.rows, ht.sameForm.columns]
    exact hpartials

end Linearized

end

variable [Field K] [LinearOrder K] [PartialFunctions K] {s s' t t' : EquationSystem (Exact K)}
  {v : ParamHandle → Exact K} {sel : Selection}

/-- The partial derivatives of a linearization are defined where the equations of the part are
differentiable with respect to its unknowns. -/
theorem Linearized.isNumber_partials_iff (ht : Linearized sel s t) (hd : s.HandlesDistinct) :
    (∀ d ∈ t.linearization.partials, IsNumber (d.value.eval (.byHandle v))) ↔
      ∀ q ∈ s.equations, sel.hasEquation q = true → ∀ p ∈ s.params, sel.hasParam p = true →
        q.expr.Differentiable v p.handle := by
  rw [ht.sameForm.partials, partials_linearize ht.written]
  constructor
  · intro hpartials q hq hsel p hp hselp
    rw [← Expr.isNumber_partialWrt_slotForm (s := s)]
    cases hdep : (s.slotForm q.expr).dependsOn p.handle with
    | false =>
      rw [Expr.partialWrt_eq_zero hdep]
      exact Exact.isNumber_zero
    | true =>
      obtain ⟨k, hk⟩ := List.getElem?_of_mem hq
      obtain ⟨c, hc⟩ := List.getElem?_of_mem hp
      obtain ⟨j, hj⟩ := List.getElem?_of_mem (mem_select_fst.2 ⟨p, hc, hselp⟩)
      have hcolumn := (column_eq_iff hd (s.nodup_select sel).1 hj hc p.handle).2 rfl
      have hrow : s.slotForm q.expr ∈ (s.select sel).2.filterMap fun k =>
          s.equations[k]?.map fun q => s.slotForm q.expr :=
        List.mem_filterMap.2 ⟨k, mem_select_snd.2 ⟨q, hk, hsel⟩, by rw [hk, Option.map_some]⟩
      obtain ⟨i, hi⟩ := List.getElem?_of_mem hrow
      by_contra hundefined
      -- A derivative that is undefined is none that folds to zero, and so it is kept.
      have hkept : (((s.slotForm q.expr).partialWrt p.handle).fold).isZeroConst = false := by
        refine Bool.eq_false_iff.2 fun hzero => hundefined ?_
        rw [Expr.eval_of_isZeroConst hzero]
        exact Exact.isNumber_zero
      refine hundefined (hpartials ⟨i, j, ((s.slotForm q.expr).partialWrt p.handle).fold⟩ ?_)
      refine List.mem_flatMap.2 ⟨(s.slotForm q.expr, i), List.mem_zipIdx_iff_getElem?.2 hi, ?_⟩
      refine List.mem_filterMap.2 ⟨p.handle, Expr.mem_params.2 hdep, ?_⟩
      rw [hcolumn]
      simp only [hkept]
      rfl
  · intro hdiff d hmem
    obtain ⟨⟨f, i⟩, hf, hd'⟩ := List.mem_flatMap.1 hmem
    obtain ⟨k, hk, hkf⟩ := List.mem_filterMap.1 (List.fst_mem_of_mem_zipIdx hf)
    obtain ⟨q, hq, hsel⟩ := mem_select_snd.1 hk
    rw [hq, Option.map_some] at hkf
    cases hkf
    obtain ⟨h, _, heq⟩ := List.mem_filterMap.1 hd'
    split at heq
    · cases heq
    · next column hcolumn =>
      obtain ⟨c, hpos, hidx⟩ := Option.bind_eq_some_iff.1 hcolumn
      simp only [Option.ite_none_left_eq_some, Option.some.injEq] at heq
      obtain ⟨_, rfl⟩ := heq
      obtain ⟨hlt, hget, _⟩ := List.idxOf?_eq_some_iff.1 hidx
      obtain ⟨p, hp, hselp⟩ := mem_select_fst.1 (hget ▸ List.getElem_mem hlt)
      obtain ⟨p', hp', rfl⟩ := exists_of_position? hpos
      obtain rfl := Option.some.inj (hp.symm.trans hp')
      exact Expr.isNumber_partialWrt_slotForm.2 (hdiff q (List.mem_of_getElem? hq) hsel p
        (List.mem_of_getElem? hp) hselp)

/-- The Jacobian of a linearization is one of numbers if all partial derivatives are defined. -/
theorem isNumeric_jacobianAt {lin : Linearization (Exact K)}
    (hcolumns : ∀ d ∈ lin.partials, d.column < lin.columns.length) :
    (jacobianAt lin v).IsNumeric ↔ ∀ d ∈ lin.partials, IsNumber (d.value.eval (.byHandle v)) := by
  rw [jacobianAt, SparseMatrix.isNumeric_ofTriplets, ← List.map_prod_left_eq_zip]
  simp only [List.mem_filterMap, List.mem_map, Option.ite_none_left_eq_some, Option.some.injEq]
  constructor
  · intro hentries d hd
    by_contra hundefined
    refine hundefined (hentries ⟨d.row, d.column, d.value.eval (.byHandle v)⟩
      ⟨_, ⟨d, hd, rfl⟩, fun hzero => hundefined ?_, rfl⟩ (hcolumns d hd))
    exact ⟨0, Exact.beq_number.1 hzero⟩
  · rintro hpartials _ ⟨_, ⟨d, hd, rfl⟩, _, rfl⟩ _
    exact hpartials d hd

/-! ## A step -/

/-- Giving an unknown what it has changes nothing. -/
theorem updateParam_eq_self {s : EquationSystem α} {i : Nat}
    {f : Param α → Param α}
    (hf : ∀ p, s.params[i]? = some p → f p = p) : s.updateParam i f = s := by
  have hsame : s.params.modify i f = s.params := by
    refine List.ext_getElem? fun j => ?_
    rw [List.getElem?_modify]
    by_cases hij : i = j
    · subst hij
      cases hp : s.params[i]? with
      | none => rfl
      | some p => simp [hf p hp]
    · simp [hij]
  rw [updateParam, hsame]

/-- A step of zeros moves nothing. -/
theorem move_zero (hreasonable : ∀ p ∈ s.params, s.settings.isUnreasonable p.value = false) :
    ∀ {steps : List (Nat × Exact K)}, (∀ e ∈ steps, e.2 = 0) → s.move steps = (true, s)
  | [], _ => rfl
  | (i, dx) :: rest, hsteps => by
    obtain rfl : dx = 0 := hsteps (i, dx) (List.mem_cons_self ..)
    have hrest := move_zero hreasonable fun e he => hsteps e (List.mem_cons_of_mem _ he)
    rw [move]
    cases hp : s.params[i]? with
    | none => exact hrest
    | some p =>
      have hsame : (s.updateParam i fun p' => { p' with value := p.value }) = s :=
        updateParam_eq_self fun p' hp' => by rw [Option.some.inj (hp.symm.trans hp')]
      simp only [Exact.sub_zero_eq, hsame, hreasonable p (List.mem_of_getElem? hp)]
      exact hrest

/-- A step with an undefined coordinate fails. -/
theorem move_undefined {i : Nat} : ∀ {steps : List (Nat × Exact K)} {s : EquationSystem (Exact K)},
    (i, .undefined) ∈ steps → i < s.params.length → (s.move steps).1 = false
  | (j, dx) :: rest, s, hmem, hi => by
    rw [move]
    rcases List.mem_cons.1 hmem with heq | hmem
    · cases heq
      rw [List.getElem?_eq_getElem hi]
      simp only [show ∀ x : Exact K, x - .undefined = .undefined by rintro (_ | _) <;> rfl]
      rw [if_pos Settings.isUnreasonable_undefined]
    · cases hp : s.params[j]? with
      | none => exact move_undefined hmem hi
      | some p =>
        simp only
        split
        · rfl
        · refine move_undefined hmem ?_
          rwa [updateParam, List.length_modify]

/-! ## The iteration -/

/-- The weights are one, or the factor for the columns of dragged unknowns, so a number will do for
it. -/
theorem weighsByNumbers_weigh (hscale : ∃ x : K, s.settings.draggedColumnScale = .number x) :
    s.weigh.WeighsByNumbers where
  numbers w hw := by
    obtain ⟨i, _, rfl⟩ := List.mem_map.1 hw
    split
    · split
      · exact hscale
      · exact Exact.isNumber_one
    · exact Exact.isNumber_one
  length_eq := List.length_map _

/-- At rest, all residuals are zero. -/
theorem AtRest.residuals (hs : AtRest v s) (ht : Linearized sel s t) :
    t.linearization.residualExprs.map (·.eval t.lookup) =
      List.replicate t.linearization.rows.length 0 := by
  have htrest := hs.frame ht.frame
  have hlength := Covers.length_residuals (s := { t with linearization := { t.linearization with
    residuals := t.linearization.residualExprs.map (·.eval t.lookup) } })
    ⟨ht.covers.columns, ht.covers.rows, ht.covers.residualExprs⟩ rfl
  refine List.eq_replicate_iff.2 ⟨hlength, fun b hb => ?_⟩
  obtain ⟨e, he, rfl⟩ := List.mem_map.1 hb
  rw [ht.covers.residualExprs] at he
  obtain ⟨k, _, hk⟩ := List.mem_filterMap.1 he
  obtain ⟨q, hq, rfl⟩ := Option.map_eq_some_iff.1 hk
  rw [eval_slotForm, htrest.value]
  exact Expr.eval_fold (htrest.holds q (List.mem_of_getElem? hq))

/-- A linearization outlasts whatever keeps its form and moves nothing. -/
theorem Linearized.trans (ht : Linearized sel s t) (hframe : Frame (fun _ _ => False) t t')
    (hform : t.linearization.SameForm t'.linearization) : Linearized sel s t' :=
  ⟨ht.written, ht.frame.trans hframe, ht.sameForm.trans hform⟩

section
variable {u : EquationSystem (Exact K)} {x : List (Exact K)} {b : Bool}

/-- What a step at rest is computed from: weights that are numbers, residuals that are zero, and the
Jacobian at the present values. -/
theorem AtRest.weigh (hs : AtRest v s) (ht : Linearized sel s t)
    (hresiduals : t.linearization.residuals = List.replicate t.linearization.rows.length 0)
    (hjac : t.evalJacobian = .ok u) :
    u.weigh.WeighsByNumbers ∧ Linearized sel s u.weigh ∧
      u.weigh.linearization.residuals = List.replicate u.weigh.linearization.rows.length 0 ∧
      (u.weigh.weighedJacobian.IsNumeric ↔ (jacobianAt t.linearization v).IsNumeric) := by
  have htrest := hs.frame ht.frame
  obtain ⟨hframe, hform, _⟩ := frame_weigh (fun _ _ => False) hjac
  rw [evalJacobian_eq ht.resolved.partials, htrest.value] at hjac
  cases hjac
  have hw := weighsByNumbers_weigh (s := { t with linearization :=
    { t.linearization with jacobian := jacobianAt t.linearization v } }) htrest.proper.scale
  exact ⟨hw, ht.trans hframe hform, hresiduals,
    hw.isNumeric_weighedJacobian fun _ hd => SparseMatrix.column_lt_of_mem_triplets hd⟩

variable [IsStrictOrderedRing K] [LawfulRoot K] [TotalRoot K]

/-- A step at rest is one of zeros if the Jacobian is one of numbers. Otherwise there is none, or it
has an undefined coordinate and fails. -/
theorem AtRest.takesStep (hs : AtRest v s) (ht : Linearized sel s t)
    (hresiduals : t.linearization.residuals = List.replicate t.linearization.rows.length 0)
    (htake : TakesStep leastSquaresStep t u x b t') :
    (b = true ↔ (jacobianAt t.linearization v).IsNumeric) ∧
      (b = true → t' = u.weigh.keepStep x) := by
  obtain ⟨hw, hlinearized, hzero, hnumeric⟩ := hs.weigh ht hresiduals htake.jacobian
  have hmove := htake.move
  rw [← hnumeric]
  by_cases hnumbers : u.weigh.weighedJacobian.IsNumeric
  · have hx : x = List.replicate u.weigh.linearization.columns.length 0 :=
      Except.ok.inj (htake.step.symm.trans (leastSquaresStep_eq_zero hw hnumbers hzero))
    have hreasonable : ∀ p ∈ (u.weigh.keepStep x).params,
        (u.weigh.keepStep x).settings.isUnreasonable p.value = false :=
      (hs.frame hlinearized.frame).reasonable
    have hzeros : ∀ e ∈ u.weigh.linearization.columns.zip x, e.2 = 0 := by
      intro e he
      have hmem := (List.of_mem_zip he).2
      rw [hx] at hmem
      exact List.eq_of_mem_replicate hmem
    cases (move_zero hreasonable hzeros).symm.trans hmove
    exact ⟨iff_of_true rfl hnumbers, fun _ => rfl⟩
  · have hrows : u.weigh.linearization.rows ≠ [] := by
      -- Without rows there are no partial derivatives, so none is undefined.
      refine fun hrows => hnumbers (hnumeric.2 ((isNumeric_jacobianAt ?_).2 ?_)) <;>
      · intro d hd
        have hlt := (ht.inRange.partials d hd).1
        rw [← (frame_weigh Anything htake.jacobian).2.1.rows, hrows] at hlt
        exact absurd hlt (Nat.not_lt_zero _)
    obtain ⟨hlength, hmem⟩ := undefined_mem_of_leastSquaresStep hw hrows hnumbers htake.step
    obtain ⟨j, hj⟩ := List.getElem?_of_mem hmem
    have hlt : j < u.weigh.linearization.columns.length := by
      rw [← hlength]
      exact (List.getElem?_eq_some_iff.1 hj).1
    have hfails := move_undefined (s := u.weigh.keepStep x) (List.mem_of_getElem?
      (List.getElem?_zip_eq_some.2 ⟨List.getElem?_eq_getElem hlt, hj⟩))
      (hlinearized.inRange.columns _ (List.getElem_mem hlt))
    rw [hmove] at hfails
    obtain rfl : b = false := hfails
    exact ⟨iff_of_false nofun hnumbers, nofun⟩

/-- An iteration from residuals of zero converges in its first round if the Jacobian is one of
numbers, and moves nothing then. Otherwise it fails. -/
theorem AtRest.iterate {further : Nat} (hs : AtRest v s) (ht : Linearized sel s t)
    (hresiduals : t.linearization.residuals = List.replicate t.linearization.rows.length 0)
    (h : iterate leastSquaresStep further t = .ok (b, t')) :
    (b = true ↔ (jacobianAt t.linearization v).IsNumeric) ∧
      (b = true → Frame (fun _ _ => False) t t') := by
  -- Where a step has been taken, the residuals are zero again.
  have hstill : ∀ {u t₁ t₂ : EquationSystem (Exact K)} {x : List (Exact K)},
      TakesStep leastSquaresStep t u x true t₁ → t₁.evalResiduals = .ok t₂ →
        Frame (fun _ _ => False) t t₂ ∧
          t₂.settings.judge t₂.linearization.residuals = .converged := by
    intro u t₁ t₂ x htake hres
    obtain rfl := (hs.takesStep ht hresiduals htake).2 rfl
    obtain ⟨hframe, hform, _⟩ := frame_weigh (fun _ _ => False) htake.jacobian
    have hkept : Frame (fun _ _ => False) t (u.weigh.keepStep x) :=
      hframe.trans (.of_eq rfl rfl rfl rfl rfl rfl)
    have hlinearized := ht.trans hkept (hform.trans ⟨rfl, rfl, rfl, rfl⟩)
    refine ⟨hkept.trans (frame_evalResiduals _ hres).1, ?_⟩
    obtain rfl := evalResiduals_eq_ok hres
    simp only [hs.residuals hlinearized]
    exact (hs.frame hlinearized.frame).proper.judge_zero _
  cases iterate_round h with
  | stepless hjac hstep =>
    obtain ⟨hw, _, hzero, hnumeric⟩ := hs.weigh ht hresiduals hjac
    refine ⟨iff_of_false nofun fun hnumbers => ?_, nofun⟩
    cases hstep.symm.trans (leastSquaresStep_eq_zero hw (hnumeric.2 hnumbers) hzero)
  | unreasonable htake =>
    exact ⟨(hs.takesStep ht hresiduals htake).1, nofun⟩
  | last htake hres hjudge =>
    obtain ⟨hframe, hconverged⟩ := hstill htake hres
    obtain rfl := hjudge.2 hconverged
    exact ⟨(hs.takesStep ht hresiduals htake).1, fun _ => hframe⟩
  | again htake hres hjudge _ _ =>
    cases hjudge.symm.trans (hstill htake hres).2

end

/-- Newton's iteration at rest converges if the equations of the part are differentiable with
respect to its unknowns, and moves nothing then. Otherwise it fails. -/
theorem AtRest.newton [IsStrictOrderedRing K] [LawfulRoot K] [TotalRoot K] {b : Bool}
    (hs : AtRest v s) (ht : Linearized sel s t) (h : t.newton = .ok (b, t')) :
    (b = true ↔ ∀ q ∈ s.equations, sel.hasEquation q = true → ∀ p ∈ s.params,
      sel.hasParam p = true → q.expr.Differentiable v p.handle) ∧
      (b = true → Frame (fun _ _ => False) t t') := by
  have hcolumns : ∀ d ∈ t.linearization.partials, d.column < t.linearization.columns.length :=
    fun d hd => (ht.inRange.partials d hd).2
  rw [← ht.isNumber_partials_iff hs.handlesDistinct, ← isNumeric_jacobianAt hcolumns]
  unfold EquationSystem.newton newtonWith at h
  obtain ⟨t₁, hres, h⟩ := bind_eq_ok.1 h
  obtain ⟨hframe, hform, _⟩ := frame_evalResiduals (fun _ _ => False) hres
  have hresiduals : t₁.linearization.residuals =
      List.replicate t₁.linearization.rows.length 0 := by
    obtain rfl := evalResiduals_eq_ok hres
    exact hs.residuals ht
  obtain ⟨hiff, hstill⟩ := hs.iterate (ht.trans hframe hform) hresiduals h
  rw [jacobianAt, hform.rows, hform.columns, hform.partials] at hiff
  exact ⟨hiff, fun hb => hframe.trans (hstill hb)⟩

end EquationSystem

end SketchSolver
