import SketchSolver.EquationSystem.Newton
import SketchSolver.Proofs.Arithmetic.Sparse
import SketchSolver.Proofs.Arithmetic.Triangular

/-!
# The step at a point where all equations hold

Where all residuals are zero, the step of least weighted motion is zero, provided that every entry
of the Jacobian is defined (`leastSquaresStep_eq_zero`). One that is undefined makes the step of its
column undefined (`undefined_mem_of_leastSquaresStep`).
-/

namespace SketchSolver

open Exact (IsNumber)

variable [Field K] [LinearOrder K] [PartialFunctions K]

namespace EquationSystem

variable {s : EquationSystem (Exact K)}

/-- The matrix that a step is computed from: the Jacobian with its columns weighed. -/
def weighedJacobian [Scalar α] (s : EquationSystem α) : SparseMatrix α :=
  .ofTriplets s.linearization.rows.length s.linearization.columns.length
    (s.linearization.jacobian.triplets.map fun t =>
      { t with value := t.value * s.linearization.weights.getD t.column 1 })

/-- The step for the coefficients `z` of the rows. -/
def combineRows [Scalar α] (s : EquationSystem α) (z : List α) : List α :=
  (s.weighedJacobian.lines.zip s.linearization.weights).map fun (column, w) =>
    column.foldl (fun x (i, v) => x + v * z.getD i 0 * w) 0

/-- A step is zero if there is nothing to solve, and is combined from the basic solution of the
square system over the rows otherwise, if that system has one. -/
theorem leastSquaresStep_eq [Scalar α] (s : EquationSystem α) : s.leastSquaresStep =
    if s.linearization.rows.length = 0 ∨ s.linearization.columns.length = 0 then
      .ok (List.replicate s.linearization.columns.length 0)
    else
      match (PivotedQR.factorize s.weighedJacobian.timesTranspose).solveBasic
        s.linearization.residuals with
      | none => .error (.leastSquares s.linearization.rows.length
          (PivotedQR.factorize s.weighedJacobian.timesTranspose).rank)
      | some z => .ok (s.combineRows z) :=
  rfl

/-- Every column of a linearization has a weight, and all weights are numbers. -/
structure WeighsByNumbers (s : EquationSystem (Exact K)) : Prop where
  numbers : Numbers s.linearization.weights
  length_eq : s.linearization.weights.length = s.linearization.columns.length

/-- The weighed Jacobian has a line for each column. -/
theorem length_weighedJacobian [Scalar α] {s : EquationSystem α} :
    s.weighedJacobian.lines.length = s.linearization.columns.length :=
  SparseMatrix.length_ofTriplets

/-- A step has a coordinate for each column. -/
theorem WeighsByNumbers.length_combineRows (hw : s.WeighsByNumbers) (z : List (Exact K)) :
    (s.combineRows z).length = s.linearization.columns.length := by
  rw [combineRows, List.length_map, List.length_zip, hw.length_eq, length_weighedJacobian,
    Nat.min_self]

/-- Weights that are numbers make no entry defined or undefined. -/
theorem WeighsByNumbers.isNumeric_weighedJacobian (hw : s.WeighsByNumbers)
    (hcolumns : ∀ t ∈ s.linearization.jacobian.triplets,
      t.column < s.linearization.columns.length) :
    s.weighedJacobian.IsNumeric ↔ s.linearization.jacobian.IsNumeric := by
  have hweight : ∀ j, IsNumber (s.linearization.weights.getD j 1) := by
    intro j
    rw [List.getD_eq_getElem?_getD]
    cases hj : s.linearization.weights[j]? with
    | none => exact Exact.isNumber_one
    | some w => exact hw.numbers w (List.mem_of_getElem? hj)
  rw [SparseMatrix.isNumeric_iff (A := s.linearization.jacobian), weighedJacobian]
  simp only [SparseMatrix.isNumeric_ofTriplets, List.forall_mem_map, Exact.isNumber_mul, hweight,
    and_true]
  exact forall₂_congr fun t ht => imp_iff_right (hcolumns t ht)

/-- A coordinate of a step that is computed from zeros is zero. -/
theorem stepEntry_eq_zero {column : List (Nat × Exact K)} {w : Exact K} (n : Nat)
    (hcolumn : ∀ e ∈ column, IsNumber e.2) (hw : IsNumber w) :
    column.foldl (fun x (i, v) => x + v * (List.replicate n 0).getD i 0 * w) 0 = (0 : Exact K) := by
  have hzero : ∀ i, (List.replicate n (0 : Exact K)).getD i 0 = 0 := by
    intro i
    rw [List.getD_eq_getElem?_getD, List.getElem?_replicate]
    split <;> rfl
  induction column with
  | nil => rfl
  | cons e column ih =>
    obtain ⟨i, v⟩ := e
    have hv : IsNumber v := hcolumn (i, v) (List.mem_cons_self ..)
    have hstep : (0 : Exact K) + v * (List.replicate n 0).getD i 0 * w = 0 := by
      rw [hzero, Exact.mul_zero_of_isNumber hv, Exact.zero_mul_of_isNumber hw]
      exact congrArg Exact.number (add_zero 0)
    simp only [List.foldl_cons, hstep]
    exact ih fun e he => hcolumn e (List.mem_cons_of_mem _ he)

/-- A coordinate of a step is defined only if all entries of its column are. -/
theorem isNumber_of_stepEntry {w : Exact K} {z : List (Exact K)} :
    ∀ {column : List (Nat × Exact K)} {a : Exact K},
      IsNumber (column.foldl (fun x (i, v) => x + v * z.getD i 0 * w) a) →
        IsNumber a ∧ ∀ e ∈ column, IsNumber e.2
  | [], _, h => ⟨h, nofun⟩
  | (i, v) :: column, a, h => by
    rw [List.foldl_cons] at h
    obtain ⟨hstep, hcolumn⟩ := isNumber_of_stepEntry h
    simp only [Exact.isNumber_add, Exact.isNumber_mul] at hstep
    exact ⟨hstep.1, List.forall_mem_cons.2 ⟨hstep.2.1.1, hcolumn⟩⟩

/-- Where all residuals are zero, the step is zero, if the Jacobian is one of numbers. -/
theorem leastSquaresStep_eq_zero [IsStrictOrderedRing K] [LawfulRoot K] [TotalRoot K]
    (hw : s.WeighsByNumbers) (hjacobian : s.weighedJacobian.IsNumeric)
    (hresiduals : s.linearization.residuals = List.replicate s.linearization.rows.length 0) :
    s.leastSquaresStep = .ok (List.replicate s.linearization.columns.length 0) := by
  have hsolve := (PivotedQR.isNumeric_factorize hjacobian.numbers_timesTranspose).solveBasic_zero
  have hheight : (PivotedQR.factorize s.weighedJacobian.timesTranspose).height =
      s.linearization.rows.length := rfl
  rw [hheight, ← hresiduals] at hsolve
  rw [leastSquaresStep_eq]
  split
  · rfl
  · simp only [hsolve]
    refine congrArg Except.ok (List.eq_replicate_iff.2 ⟨hw.length_combineRows _, fun x hx => ?_⟩)
    obtain ⟨⟨column, w⟩, hmem, rfl⟩ := List.mem_map.1 hx
    obtain ⟨hcolumn, hweight⟩ := List.of_mem_zip hmem
    exact stepEntry_eq_zero _ (hjacobian column hcolumn) (hw.numbers w hweight)

/-- An entry of the Jacobian that is undefined makes a coordinate of the step undefined. -/
theorem undefined_mem_of_leastSquaresStep {x : List (Exact K)} (hw : s.WeighsByNumbers)
    (hrows : s.linearization.rows ≠ []) (hjacobian : ¬ s.weighedJacobian.IsNumeric)
    (hstep : s.leastSquaresStep = .ok x) :
    x.length = s.linearization.columns.length ∧ .undefined ∈ x := by
  simp only [SparseMatrix.IsNumeric, not_forall] at hjacobian
  obtain ⟨column, hmem, e, he, hundefined⟩ := hjacobian
  obtain ⟨j, hj⟩ := List.getElem?_of_mem hmem
  have hlt : j < s.linearization.columns.length := by
    rw [← length_weighedJacobian]
    exact (List.getElem?_eq_some_iff.1 hj).1
  rw [leastSquaresStep_eq,
    if_neg (not_or.2 ⟨mt List.length_eq_zero_iff.1 hrows, by omega⟩)] at hstep
  split at hstep
  · cases hstep
  · next z _ =>
    cases hstep
    have hlt' : j < s.linearization.weights.length := by rwa [hw.length_eq]
    refine ⟨hw.length_combineRows _, List.mem_map.2 ⟨(column, s.linearization.weights[j]),
      List.mem_of_getElem? (List.getElem?_zip_eq_some.2 ⟨hj, List.getElem?_eq_getElem hlt'⟩), ?_⟩⟩
    exact Exact.eq_undefined fun hnumber => hundefined ((isNumber_of_stepEntry hnumber).2 e he)

end EquationSystem

end SketchSolver
