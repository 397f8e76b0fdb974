import SketchSolver.Error

/-!
# Log levels

The levels of the log, and the names that settings know them by.
-/

namespace SketchSolver

/-- From which importance on a message is logged. -/
inductive LogLevel where
  | debug
  | info
  | warn
  | error
  | off
deriving DecidableEq, Repr

namespace LogLevel

/-- The name of a level in settings. -/
def name : LogLevel → String
  | .debug => "debug"
  | .info => "info"
  | .warn => "warn"
  | .error => "error"
  | .off => "off"

/-- All levels. -/
def all : List LogLevel :=
  [.debug, .info, .warn, .error, .off]

/-- The level of the given name. Without a name it is `info`. -/
def ofName? : Option String → Except SolverError LogLevel
  | none => .ok .info
  | some name =>
    match all.find? (·.name == name) with
    | some level => .ok level
    | none => .error (.unknownLogLevel name)

end LogLevel

end SketchSolver
