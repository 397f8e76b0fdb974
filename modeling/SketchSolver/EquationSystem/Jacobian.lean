import SketchSolver.EquationSystem.Basic
import SketchSolver.Expr.Derivative
import SketchSolver.Expr.Fold
import SketchSolver.Expr.Replacement

/-!
# Linearization

The rows and columns of a Jacobian are the equations and unknowns of a part of the system in the
order of their tables, so a row that fails points to its equation. Equations are folded and their
unknowns written by position before anything is computed from them, and a partial derivative is
kept only if it does not fold to zero.
-/

namespace SketchSolver.EquationSystem

variable [Scalar α]

/-- The form of an expression that is evaluated: folded, and with unknowns written by position. -/
def slotForm (s : EquationSystem α) (e : Expr α) : Expr α :=
  e.fold.toSlots s.position?

/-- The partial derivatives of the left side of one row, for the columns at the given positions. -/
def partialsOfRow (s : EquationSystem α) (columns : List Nat) (row : Nat) (f : Expr α) :
    List (Triplet (Expr α)) :=
  f.params.filterMap fun h =>
    match (s.position? h).bind (columns.idxOf? ·) with
    | none => none
    | some column =>
      let d := (f.partialWrt h).fold
      if d.isZeroConst then none else some { row, column, value := d }

/-- Linearizes a part of the system, without evaluating anything. False, and nothing is linearized,
if the part has too many equations. -/
def linearize (s : EquationSystem α) (sel : Selection) : Bool × EquationSystem α :=
  let (columns, rows) := s.select sel
  if s.settings.maxEquations ≤ rows.length then
    (false, { s with linearization := .empty })
  else
    let residualExprs :=
      rows.filterMap fun i => s.equations[i]?.map fun q => s.slotForm q.expr
    let linearization : Linearization α :=
      { columns
        rows
        partials := residualExprs.zipIdx.flatMap fun (f, i) => s.partialsOfRow columns i f
        residualExprs
        jacobian := .empty rows.length columns.length
        residuals := List.replicate rows.length 0
        step := List.replicate columns.length 0
        weights := List.replicate columns.length 1 }
    (true, { s with linearization })

/-- Evaluates the Jacobian at the present values. Entries that are zero are not stored. -/
def evalJacobian (s : EquationSystem α) : Except (Fault α) (EquationSystem α) := do
  let lin := s.linearization
  let values ← s.values (lin.partials.map (·.value))
  let entries := (lin.partials.zip values).filterMap fun (t, v) =>
    if v == 0 then none else some ({ row := t.row, column := t.column, value := v } : Triplet α)
  let jacobian := SparseMatrix.ofTriplets lin.rows.length lin.columns.length entries
  return { s with linearization := { lin with jacobian } }

/-- Evaluates the residuals at the present values. -/
def evalResiduals (s : EquationSystem α) : Except (Fault α) (EquationSystem α) := do
  let residuals ← s.values s.linearization.residualExprs
  return { s with linearization := { s.linearization with residuals } }

end SketchSolver.EquationSystem
