import SketchSolver.EquationSystem.Jacobian

/-!
# Newton's iteration

A step solves the linearized system `J x = F` with least weighted motion: with the weights `W` of
the columns, `(J W)(J W)ᵀ z = F` is solved by a rank revealing factorization, and the step is
`W (J W)ᵀ z`. A dragged parameter has a small weight, so the others move instead of it.

The iteration is written for any way to compute a step (`newtonWith`): whether it has converged is
judged from the residuals at the point it has reached, and not from the step.
-/

namespace SketchSolver

/-- What the residuals at a point say. -/
inductive Verdict where
  /-- All residuals count as zero. -/
  | converged
  /-- A residual is too large. -/
  | unconverged
  /-- A residual is undefined, or larger than can be meant. -/
  | blownUp
deriving DecidableEq, Repr

variable [Scalar α]

/-- The verdict of the first residual that does not count as zero. -/
def Settings.judge (s : Settings α) : List α → Verdict
  | [] => .converged
  | b :: rest =>
    if s.isUnreasonable b then .blownUp
    else if s.convergeTolerance < Scalar.abs b then .unconverged
    else s.judge rest

namespace EquationSystem

/-! ## One step -/

/-- Gives every column of the linearization its weight. -/
def weigh (s : EquationSystem α) : EquationSystem α :=
  let weights := s.linearization.columns.map fun i =>
    match s.params[i]? with
    | some p => if s.isDragged p.handle then s.settings.draggedColumnScale else 1
    | none => 1
  { s with linearization := { s.linearization with weights } }

/-- The step with least weighted motion for the present Jacobian and residuals. Without rows or
columns it is zero. -/
def leastSquaresStep (s : EquationSystem α) : Except SolverError (List α) :=
  let lin := s.linearization
  let m := lin.rows.length
  let n := lin.columns.length
  if m = 0 ∨ n = 0 then .ok (List.replicate n 0)
  else
    let weighed := lin.jacobian.triplets.map fun t =>
      { t with value := t.value * lin.weights.getD t.column 1 }
    let A := SparseMatrix.ofTriplets m n weighed
    let qr := PivotedQR.factorize A.timesTranspose
    match qr.solveBasic lin.residuals with
    | none => .error (.leastSquares m qr.rank)
    | some z =>
      .ok ((A.lines.zip lin.weights).map fun (column, w) =>
        column.foldl (fun x (i, v) => x + v * z.getD i 0 * w) 0)

/-- Computes the step and keeps it in the linearization. -/
def solveLeastSquares (s : EquationSystem α) : Except SolverError Unit × EquationSystem α :=
  let s := s.weigh
  match s.leastSquaresStep with
  | .error e => (.error e, s)
  | .ok step => (.ok (), { s with linearization := { s.linearization with step } })

/-- Subtracts the steps from the unknowns at the positions, up to the first one that gets a value
larger than can be meant; false if there is such a one. -/
def move (s : EquationSystem α) : List (Nat × α) → Bool × EquationSystem α
  | [] => (true, s)
  | (i, dx) :: rest =>
    match s.params[i]? with
    | none => s.move rest
    | some p =>
      let x := p.value - dx
      let s := s.updateParam i fun p => { p with value := x }
      if s.settings.isUnreasonable x then (false, s) else s.move rest

/-! ## The iteration -/

/-- The iteration from a point whose residuals have been evaluated, for one step and at most
`further` ones after it. -/
def iterate (step : EquationSystem α → Except SolverError (List α)) :
    (further : Nat) → EquationSystem α → Except (Fault α) (Bool × EquationSystem α)
  | further, s => do
    let s := (← s.evalJacobian).weigh
    match step s with
    | .error _ => return (false, s)
    | .ok x =>
      let s := { s with linearization := { s.linearization with step := x } }
      let (reasonable, s) := s.move (s.linearization.columns.zip x)
      if !reasonable then return (false, s)
      let s ← s.evalResiduals
      match s.settings.judge s.linearization.residuals with
      | .blownUp => return (false, s)
      | .converged => return (true, s)
      | .unconverged =>
        match further with
        | 0 => return (false, s)
        | further + 1 => iterate step further s

/-- Newton's iteration with a given way to compute a step. -/
def newtonWith (step : EquationSystem α → Except SolverError (List α)) (s : EquationSystem α) :
    Except (Fault α) (Bool × EquationSystem α) := do
  iterate step s.settings.maxIterations (← s.evalResiduals)

/-- Newton's iteration with the step of least weighted motion. True if it converges. -/
def newton (s : EquationSystem α) : Except (Fault α) (Bool × EquationSystem α) :=
  newtonWith leastSquaresStep s

end EquationSystem

end SketchSolver
