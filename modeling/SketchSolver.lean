import SketchSolver.EquationTable
import SketchSolver.PhaseTimes
import SketchSolver.Settings.LogLevel
import SketchSolver.Settings.Reading
import SketchSolver.Sketch.Solve
import SketchSolver.Proofs.EquationSystem.Positions
import SketchSolver.Proofs.EquationSystem.Frame
import SketchSolver.Proofs.EquationSystem.Elimination
import SketchSolver.Proofs.EquationSystem.Record
import SketchSolver.Proofs.Arithmetic.Exact
import SketchSolver.Proofs.EquationSystem.Substitution
import SketchSolver.Proofs.EquationSystem.Newton
import SketchSolver.Proofs.EquationSystem.Singletons
import SketchSolver.Proofs.EquationSystem.Recovery
import SketchSolver.Proofs.Solve.Loading
import SketchSolver.Proofs.Solve.Preparation
import SketchSolver.Proofs.Solve.Acceptance
import SketchSolver.Proofs.Solve.Completion
import SketchSolver.Proofs.Solve.Written
import SketchSolver.Proofs.EquationSystem.Independence
import SketchSolver.Proofs.Solve.Conflicts
import SketchSolver.Proofs.Sketch.Equations
import SketchSolver.Proofs.Sketch.Loading
import SketchSolver.Proofs.Sketch.Conflicts
import SketchSolver.Proofs.Arithmetic.Expressions
import SketchSolver.Proofs.Solve.Residuals
import SketchSolver.Proofs.EquationSystem.Totality
import SketchSolver.Proofs.Solve.Totality
import SketchSolver.Proofs.EquationSystem.Solutions
import SketchSolver.Proofs.Solve.Search
import SketchSolver.Proofs.Arithmetic.Rank
import SketchSolver.Proofs.Sketch.SolveConflicts
import SketchSolver.Proofs.Arithmetic.Derivatives
import SketchSolver.Proofs.Arithmetic.Reduction
import SketchSolver.Proofs.EquationSystem.Jacobian
import SketchSolver.Proofs.Solve.Pairing
import SketchSolver.Proofs.Solve.Freedom
import SketchSolver.Proofs.Solve.Exits
import SketchSolver.Proofs.Sketch.Frame
import SketchSolver.Proofs.EquationSystem.Stages
import SketchSolver.Proofs.Arithmetic.Order
import SketchSolver.Proofs.EquationSystem.Stopping
import SketchSolver.Proofs.Solve.Blame
import SketchSolver.Proofs.Arithmetic.Numbers
import SketchSolver.Proofs.Arithmetic.Factorization
import SketchSolver.Proofs.Arithmetic.Orthogonal
import SketchSolver.Proofs.Arithmetic.Triangular
import SketchSolver.Proofs.Arithmetic.Kernel
import SketchSolver.Proofs.EquationSystem.Step
import SketchSolver.Proofs.Arithmetic.Satisfied
import SketchSolver.Proofs.EquationSystem.Rest
import SketchSolver.Proofs.EquationSystem.RestingPasses
import SketchSolver.Proofs.Solve.Rest
import SketchSolver.Proofs.Connectivity
import SketchSolver.Proofs.Solve.History
import SketchSolver.Proofs.EquationSystem.PairOrder
import SketchSolver.Proofs.EquationSystem.FreeUnknowns
import SketchSolver.Proofs.Solve.FreeUnknowns
import SketchSolver.Proofs.Sketch.FreeParams
import SketchSolver.Proofs.Arithmetic.Isolation
import SketchSolver.Proofs.Sketch.Tables
import SketchSolver.Proofs.Solve.TwoRuns
import SketchSolver.Proofs.Sketch.ReferenceDimensions
import SketchSolver.Proofs.Sketch.Reports
import SketchSolver.Proofs.Arithmetic.Laws
import SketchSolver.Proofs.Arithmetic.Folding
import SketchSolver.Proofs.EquationSystem.Linearization
import SketchSolver.Proofs.Arithmetic.Reals
import SketchSolver.Proofs.Arithmetic.Pivots
import SketchSolver.Proofs.Arithmetic.Sparse
import SketchSolver.Proofs.Arithmetic.BasicSolution
import SketchSolver.Proofs.EquationSystem.LeastSquares
import SketchSolver.Proofs.EquationSystem.Convergence
import SketchSolver.Proofs.EquationSystem.NormalForm
import SketchSolver.Proofs.EquationSystem.Idempotence
import SketchSolver.Proofs.EquationSystem.SolvedPairs
import SketchSolver.Proofs.EquationSystem.Replay
import SketchSolver.Proofs.Solve.Trials
import SketchSolver.Proofs.Expr.References
import SketchSolver.Proofs.Sketch.LoadedValues
import SketchSolver.Proofs.Sketch.Excepting
import SketchSolver.Proofs.Expr.NormalForm
import SketchSolver.Proofs.Arithmetic.DenseForm
import SketchSolver.Proofs.Decimal.Positional
import SketchSolver.Proofs.Expr.Printing
import SketchSolver.Proofs.Decimal.Shortest
