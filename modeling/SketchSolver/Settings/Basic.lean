import SketchSolver.Matrix.PivotedQR

/-!
# Settings

The limits and tolerances of a solve. They hold the function that tells the rank of a matrix as
well, since which equations are redundant is a matter of that function and of nothing else; the
standard one is the numerical rank of a pivoted QR factorization.
-/

namespace SketchSolver

/-- The settings of a solver. -/
structure Settings (α : Type u) where
  /-- A system of this many equations is too large. -/
  maxEquations : Nat
  /-- The largest magnitude of a residual that counts as zero. -/
  convergeTolerance : α
  /-- How many further steps an iteration may take after its first one. -/
  maxIterations : Nat
  /-- The weight of a dragged parameter in a step. The smaller it is, the less the parameter
  moves. -/
  draggedColumnScale : α
  /-- The largest magnitude of a value that can be meant. -/
  unreasonableMagnitude : α
  /-- The name of a log level. -/
  logLevel : Option String
  /-- For how many milliseconds a new group lets the solver search for constraints to remove. -/
  searchTimeoutMs : Nat
  /-- A parameter is free if its unit vector has a squared distance above this from the row space
  of the Jacobian. -/
  freeColumnTolerance : α
  /-- The rank of a matrix. -/
  rankOf : DenseMatrix α → Nat

/-- The value is undefined, or larger than can be meant. -/
def Settings.isUnreasonable [Scalar α] (s : Settings α) (x : α) : Bool :=
  Scalar.isUndefined x || s.unreasonableMagnitude < Scalar.abs x

/-- The settings that hold where nothing else is said. Residuals are held to a hundredth of the
length `1e-6` below which two lengths are the same. -/
def Settings.standard : Settings Float where
  maxEquations := 2048
  convergeTolerance := 1e-6 / 1e2
  maxIterations := 50
  draggedColumnScale := 1.0 / 20.0
  unreasonableMagnitude := 1e11
  logLevel := some "info"
  searchTimeoutMs := 5000
  freeColumnTolerance := 1e-12
  rankOf A := (PivotedQR.factorize A).rank

/-- Settings are standard where none are given. -/
instance : Inhabited (Settings Float) := ⟨Settings.standard⟩

end SketchSolver
