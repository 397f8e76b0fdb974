import SketchSolver.Proofs.EquationSystem.Jacobian
import SketchSolver.Proofs.EquationSystem.Stopping
import SketchSolver.Proofs.EquationSystem.Totality

/-!
# What a linearization evaluates to

Between the equations of a part and the matrix that a step is computed from stand two foldings, the
writing of unknowns by position, a differentiation, and two maps from parameters to columns. None of
them shows in the result (`linearize_correct`): wherever the unknowns have moved since, the entries
of the Jacobian are the derivatives of the equations as they were written, with respect to the
unknowns of the part, and the residuals are their values. An entry that is not stored is zero.

This holds in every arithmetic without rounding (`LawfulScalar`). Where an equation or a derivative
has no value, folding may have made one, and nothing is said; on the reals, where every operation is
total, there is no such case.
-/

namespace SketchSolver

open Scalar (HasValue)

namespace EquationSystem

/-! ## Positions of derivatives -/

section
variable [Scalar α] {s : EquationSystem α} {sel : Selection}

/-- The derivatives of a row stand in columns of its parameters, in their order. -/
theorem columns_partialsOfRow (s : EquationSystem α) (columns : List Nat) (row : Nat)
    (f : Expr α) : ((s.partialsOfRow columns row f).map (·.column)).Sublist
      (f.params.filterMap fun h => (s.position? h).bind (columns.idxOf? ·)) := by
  unfold partialsOfRow
  induction f.params with
  | nil => exact .slnil
  | cons h hs ih =>
    rw [List.filterMap_cons, List.filterMap_cons]
    cases (s.position? h).bind (columns.idxOf? ·) with
    | none => exact ih
    | some column =>
      cases hzero : (f.partialWrt h).fold.isZeroConst with
      | true => simpa [hzero] using ih.cons column
      | false => simpa [hzero] using ih.cons_cons column

/-- A row has at most one derivative in a column. -/
theorem nodup_partialsOfRow (s : EquationSystem α) (columns : List Nat) (row : Nat) (f : Expr α) :
    ((s.partialsOfRow columns row f).map fun d => (d.row, d.column)).Nodup := by
  have hcolumns : (f.params.filterMap fun h => (s.position? h).bind (columns.idxOf? ·)).Nodup := by
    refine f.nodup_params.filterMap fun h h' j hj hj' => ?_
    obtain ⟨i, hi, hidx⟩ := Option.bind_eq_some_iff.1 hj
    obtain ⟨i', hi', hidx'⟩ := Option.bind_eq_some_iff.1 hj'
    obtain ⟨_, hget, _⟩ := List.idxOf?_eq_some_iff.1 hidx
    obtain ⟨_, hget', _⟩ := List.idxOf?_eq_some_iff.1 hidx'
    obtain rfl : i = i' := hget.symm.trans hget'
    exact eq_of_position? hi hi'
  refine List.Nodup.of_map Prod.snd ?_
  rw [List.map_map]
  exact hcolumns.sublist (columns_partialsOfRow s columns row f)

/-- A linearization has at most one derivative at a position. -/
theorem nodup_partials_linearize (hwritten : (s.linearize sel).1 = true) :
    ((s.linearize sel).2.linearization.partials.map fun d => (d.row, d.column)).Nodup := by
  rw [partials_linearize hwritten, List.map_flatMap, List.nodup_flatMap]
  refine ⟨fun (f, i) _ => nodup_partialsOfRow s _ i f, ?_⟩
  have hrows : ((((s.select sel).2.filterMap fun k => s.equations[k]?.map fun q =>
      s.slotForm q.expr).zipIdx).map Prod.snd).Nodup := by
    rw [List.zipIdx_map_snd]
    exact List.nodup_range'
  refine (List.pairwise_map.1 hrows).imp fun {a b} hne x ha hb => hne ?_
  obtain ⟨d, hd, rfl⟩ := List.mem_map.1 ha
  obtain ⟨d', hd', heq⟩ := List.mem_map.1 hb
  rw [← (mem_partialsOfRow hd).1, ← (mem_partialsOfRow hd').1]
  exact (congrArg Prod.fst heq).symm

/-! ## Values -/

variable [LawfulScalar α] {t : EquationSystem α} {i j k c : Nat} {q : Equation α} {p : Param α}

/-- The Jacobian has the derivatives of the equations as they were written, where these have
values. -/
theorem entry_jacobianAt_eq (hd : s.HandlesDistinct) (hwritten : (s.linearize sel).1 = true)
    (hk : (s.select sel).2[i]? = some k) (hq : s.equations[k]? = some q)
    (hc : (s.select sel).1[j]? = some c) (hp : s.params[c]? = some p) {v : ParamHandle → α}
    (hvalue : HasValue ((q.expr.partialWrt p.handle).eval (.byHandle v))) :
    (jacobianAt (s.linearize sel).2.linearization v).toDense.entry i j =
      (q.expr.partialWrt p.handle).eval (.byHandle v) := by
  have hfold := Expr.eval_partialWrt_fold hvalue
  rw [entry_jacobianAt hd hwritten hk hq hc hp, Expr.eval_fold_eq (hfold ▸ hvalue), hfold]

/-- Wherever the unknowns have moved, the Jacobian is that of the equations as they were written. -/
theorem exists_evalJacobian_eq (hd : s.HandlesDistinct)
    (hhandles : ∀ q ∈ s.equations, q.expr.slotsBelow 0 = true)
    (hwritten : (s.linearize sel).1 = true) (hframe : Frame Anything (s.linearize sel).2 t)
    (hform : (s.linearize sel).2.linearization.SameForm t.linearization) :
    ∃ u, t.evalJacobian = .ok u ∧
      u.linearization.jacobian.toDense.height = (s.select sel).2.length ∧
      u.linearization.jacobian.toDense.width = (s.select sel).1.length ∧
      ∀ (i j k c : Nat) (q : Equation α) (p : Param α), (s.select sel).2[i]? = some k →
        s.equations[k]? = some q → (s.select sel).1[j]? = some c → s.params[c]? = some p →
        HasValue ((q.expr.partialWrt p.handle).eval t.lookup) →
        u.linearization.jacobian.toDense.entry i j =
          (q.expr.partialWrt p.handle).eval t.lookup := by
  obtain ⟨hcolumns, hrows, _⟩ := (s.linearize_spec (fun _ _ => False) sel).2 hwritten
  have hresolved : t.Resolved := (s.resolved_linearize sel).frame hframe hform
  refine ⟨_, evalJacobian_eq hresolved.partials, ?height, ?width, ?entry⟩
  case height =>
    exact congrArg List.length (hform.rows.trans hrows)
  case width =>
    exact (width_jacobianAt ..).trans (congrArg List.length (hform.columns.trans hcolumns))
  case entry =>
    intro i j k c q p hk hq hc hp hvalue
    have hslots := Expr.slotsIn_of_slotsBelow_zero (hhandles q (List.mem_of_getElem? hq))
    rw [hslots.partialWrt.eval nofun] at hvalue ⊢
    simp only [jacobianAt_congr hform]
    exact entry_jacobianAt_eq hd hwritten hk hq hc hp hvalue

/-- Wherever the unknowns have moved, the residuals are the values of the equations as they were
written. -/
theorem exists_evalResiduals_eq (hhandles : ∀ q ∈ s.equations, q.expr.slotsBelow 0 = true)
    (hwritten : (s.linearize sel).1 = true) (hframe : Frame Anything (s.linearize sel).2 t)
    (hform : (s.linearize sel).2.linearization.SameForm t.linearization) :
    ∃ u, t.evalResiduals = .ok u ∧
      u.linearization.residuals.length = (s.select sel).2.length ∧
      ∀ (i k : Nat) (q : Equation α), (s.select sel).2[i]? = some k →
        s.equations[k]? = some q → HasValue (q.expr.eval t.lookup) →
        u.linearization.residuals[i]? = some (q.expr.eval t.lookup) := by
  obtain ⟨hlinearize, hparts⟩ := s.linearize_spec Anything sel
  have hmoved : Frame Anything s t := hlinearize.trans hframe
  have hcovers : Covers sel t := covers_of_sameForm hwritten hmoved hform
  have hresolved : t.Resolved := (s.resolved_linearize sel).frame hframe hform
  obtain ⟨u, hu, hframe', hform'⟩ := hresolved.yields_evalResiduals
  have hcovers' : Covers sel u := hcovers.frame hframe' hform'
  obtain rfl := evalResiduals_eq_ok hu
  have hrows : t.linearization.rows = (s.select sel).2 := hform.rows.trans (hparts hwritten).2.1
  refine ⟨_, hu, ?length, ?residual⟩
  case length =>
    rw [← hrows]
    exact hcovers'.length_residuals rfl
  case residual =>
    intro i k q hk hq hvalue
    have hslots := Expr.slotsIn_of_slotsBelow_zero (hhandles q (List.mem_of_getElem? hq))
    have hresidual := hcovers'.residual_of_row rfl (by rwa [← hrows] at hk)
      (by rwa [← hmoved.equations] at hq)
    rw [hslots.eval nofun] at hvalue ⊢
    rw [← Expr.eval_fold_eq hvalue]
    exact hresidual

/-- A linearization lists the unknowns and the equations of the part in the order of their tables,
and has at most one derivative at a position. Wherever the unknowns are when it is evaluated, the
Jacobian has the derivatives of the equations as they were written, with respect to the unknowns,
and the residuals are the values of the equations. -/
theorem linearize_correct (hd : s.HandlesDistinct)
    (hhandles : ∀ q ∈ s.equations, q.expr.slotsBelow 0 = true)
    (hwritten : (s.linearize sel).1 = true) :
    let lin := (s.linearize sel).2.linearization
    (lin.columns.Pairwise (· < ·) ∧
        ∀ c, c ∈ lin.columns ↔ ∃ p, s.params[c]? = some p ∧ sel.hasParam p = true) ∧
      (lin.rows.Pairwise (· < ·) ∧
        ∀ k, k ∈ lin.rows ↔ ∃ q, s.equations[k]? = some q ∧ sel.hasEquation q = true) ∧
      (lin.partials.map fun d => (d.row, d.column)).Nodup ∧
      ∀ t, Frame Anything (s.linearize sel).2 t → lin.SameForm t.linearization →
        (∃ u, t.evalJacobian = .ok u ∧
          u.linearization.jacobian.toDense.height = lin.rows.length ∧
          u.linearization.jacobian.toDense.width = lin.columns.length ∧
          ∀ (i j k c : Nat) (q : Equation α) (p : Param α), lin.rows[i]? = some k →
            s.equations[k]? = some q → lin.columns[j]? = some c → s.params[c]? = some p →
            HasValue ((q.expr.partialWrt p.handle).eval t.lookup) →
            u.linearization.jacobian.toDense.entry i j =
              (q.expr.partialWrt p.handle).eval t.lookup) ∧
        ∃ u, t.evalResiduals = .ok u ∧
          u.linearization.residuals.length = lin.rows.length ∧
          ∀ (i k : Nat) (q : Equation α), lin.rows[i]? = some k → s.equations[k]? = some q →
            HasValue (q.expr.eval t.lookup) →
            u.linearization.residuals[i]? = some (q.expr.eval t.lookup) := by
  intro lin
  obtain ⟨hcolumns, hrows, _⟩ := (s.linearize_spec (fun _ _ => False) sel).2 hwritten
  simp only [lin, hcolumns, hrows]
  refine ⟨⟨(s.pairwise_select sel).1, fun c => mem_select_fst⟩,
    ⟨(s.pairwise_select sel).2, fun k => mem_select_snd⟩, nodup_partials_linearize hwritten,
    fun t hframe hform => ⟨?_, ?_⟩⟩
  · exact exists_evalJacobian_eq hd hhandles hwritten hframe hform
  · exact exists_evalResiduals_eq hhandles hwritten hframe hform

end

/-- A point on a circle around the origin, whose radius is given, and the line through the origin
that it is on. The slope of the line is settled already, and so is the equation that settled it. -/
def spoke : EquationSystem (Exact ℚ) :=
  let x : Expr (Exact ℚ) := .param ⟨1⟩
  let y : Expr (Exact ℚ) := .param ⟨3⟩
  { empty Settings.rational with
    params :=
      [{ handle := ⟨1⟩, value := .number 3 },
        { handle := ⟨2⟩, value := .number 2, state := .solvedAlone },
        { handle := ⟨3⟩, value := .number 4 }]
    foreign := [(⟨9⟩, .number 5)]
    equations :=
      [{ handle := ⟨.constraint ⟨1⟩, 0⟩, expr := x.square + y.square - .square (.param ⟨9⟩) },
        { handle := ⟨.constraint ⟨2⟩, 0⟩, expr := .param ⟨2⟩ - .const (.number 2),
          state := .solvedAlone },
        { handle := ⟨.constraint ⟨3⟩, 0⟩, expr := .param ⟨2⟩ * x * .const 1 - (.const 0 + y) }] }

/-- The slope is a constant of the matrix, and has no column. -/
theorem linearize_spoke : spoke.HandlesDistinct ∧
    (∀ q ∈ spoke.equations, q.expr.slotsBelow 0 = true) ∧ (spoke.linearize .live).1 = true ∧
    (spoke.linearize .live).2.linearization.columns = [0, 2] ∧
    (∃ u, (spoke.linearize .live).2.evalJacobian = .ok u ∧
      let A := u.linearization.jacobian.toDense
      (A.entry 0 0, A.entry 0 1) = (.number 6, .number 8) ∧
        (A.entry 1 0, A.entry 1 1) = (.number 2, .number (-1))) ∧
    ∃ u, (spoke.linearize .live).2.evalResiduals = .ok u ∧
      u.linearization.residuals[0]? = some (.number 0) ∧
      u.linearization.residuals[1]? = some (.number 2) := by
  have hd : spoke.HandlesDistinct := by decide
  have hhandles : ∀ q ∈ spoke.equations, q.expr.slotsBelow 0 = true := by decide
  have hwritten : (spoke.linearize .live).1 = true := by decide +kernel
  have hcolumns : (spoke.linearize .live).2.linearization.columns = [0, 2] := by decide +kernel
  have hrows : (spoke.linearize .live).2.linearization.rows = [0, 2] := by decide +kernel
  obtain ⟨_, _, _, hevaluates⟩ := linearize_correct hd hhandles hwritten
  obtain ⟨⟨u, hu, _, _, hentry⟩, u', hu', _, hresidual⟩ :=
    hevaluates _ (.refl _ _) ⟨rfl, rfl, rfl, rfl⟩
  simp only [hcolumns, hrows] at hentry hresidual
  refine ⟨hd, hhandles, hwritten, hcolumns, ⟨u, hu, ?_, ?_⟩, u', hu', ?_, ?_⟩
  · have h00 := hentry 0 0 0 0 _ _ rfl rfl rfl rfl (by decide +kernel)
    have h01 := hentry 0 1 0 2 _ _ rfl rfl rfl rfl (by decide +kernel)
    rw [h00, h01]
    decide +kernel
  · have h10 := hentry 1 0 2 0 _ _ rfl rfl rfl rfl (by decide +kernel)
    have h11 := hentry 1 1 2 2 _ _ rfl rfl rfl rfl (by decide +kernel)
    rw [h10, h11]
    decide +kernel
  · rw [hresidual 0 0 _ rfl rfl (by decide +kernel)]
    decide +kernel
  · rw [hresidual 1 2 _ rfl rfl (by decide +kernel)]
    decide +kernel

end EquationSystem

end SketchSolver
