import SketchSolver.Handle
import SketchSolver.Expr.Printer

/-!
# Errors

`SolverError` lists what can keep a call from having a result. That a system does not converge or
is redundant is no error; it is the result of a solve (`SolveResult`).

A `Fault` breaks an assumption of the solver itself: an equation was to be solved for a parameter
and cannot be, or a position points outside of its table. No call of the solver is meant
to run into one, so a fault is kept apart from the errors a caller answers to.
-/

namespace SketchSolver

/-- What keeps a call from having a result. -/
inductive SolverError where
  /-- A settings file cannot be read. -/
  | unreadable
  /-- A settings text is malformed, or has a value of the wrong kind. -/
  | malformedSettings
  /-- The name of a log level that there is not. -/
  | unknownLogLevel (level : String)
  /-- The step of an iteration cannot be computed from a number of equations of some rank. -/
  | leastSquares (equations rank : Nat)
  | unknownGroup (g : GroupHandle)
deriving DecidableEq, Repr

/-- What is said of an error, if the library says it: the text of what is wrong with a file or with
a settings text is not its own. -/
def SolverError.message? : SolverError → Option String
  | .unreadable | .malformedSettings => none
  | .unknownLogLevel level => some ("loglevel must be debug, info, warn or error, got " ++ level)
  | .leastSquares equations rank =>
    let m := toString equations
    some ("least squares step failed: " ++ m ++ " x " ++ m ++ " normal equations, rank " ++
      toString rank)
  | .unknownGroup g => some ("group " ++ g.label ++ " does not exist")

/-- An assumption of the solver that does not hold. -/
inductive Fault (α : Type u) where
  | isolation (e : IsolationError α)
  /-- A position outside of its table. -/
  | outOfRange
deriving Repr

end SketchSolver
