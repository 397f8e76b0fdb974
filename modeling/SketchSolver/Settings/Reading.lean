import SketchSolver.Error
import SketchSolver.Settings.Basic
import SketchSolver.Toml.Parser

/-!
# Settings from a configuration text

A configuration text sets the settings it names; all others are the standard ones. Whole numbers
fit into 64 bits without a sign. A setting that is a number with a fraction may be written as a
whole number. Names that are no settings are passed over.
-/

namespace SketchSolver.Settings

/-- A whole number without a sign. -/
def natural? : Toml.Value → Option Nat
  | .integer n => if 0 ≤ n && n.toNat < UInt64.size then some n.toNat else none
  | _ => none

/-- A number. A whole one fits into 64 bits, with a sign or without. -/
def number? : Toml.Value → Option Float
  | .float x => some x
  | .integer n =>
    if Int64.minValue.toInt ≤ n && n < UInt64.size then some (Float.ofInt n) else none
  | _ => none

/-- A text. -/
def string? : Toml.Value → Option String
  | .string text => some text
  | _ => none

/-- The value of a name, or the given one if there is none. -/
def field? (entries : Toml.Entries) (name : String) (read? : Toml.Value → Option β) (default : β) :
    Option β :=
  match entries.lookup name with
  | some value => read? value
  | none => some default

/-- The settings that the entries of a configuration text give. -/
def ofEntries? (entries : Toml.Entries) : Option (Settings Float) := do
  let s := Settings.standard
  let maxEquations ← field? entries "max_unknowns" natural? s.maxEquations
  let convergeTolerance ← field? entries "converge_tolerance" number? s.convergeTolerance
  let maxIterations ← field? entries "max_newton_iterations" natural? s.maxIterations
  let draggedColumnScale ← field? entries "dragged_column_scale" number? s.draggedColumnScale
  let unreasonableMagnitude ←
    field? entries "unreasonable_magnitude" number? s.unreasonableMagnitude
  let logLevel ← field? entries "loglevel" (fun v => (string? v).map some) s.logLevel
  let searchTimeoutMs ←
    field? entries "default_find_to_fix_timeout_ms" natural? s.searchTimeoutMs
  return { s with
    maxEquations, convergeTolerance, maxIterations, draggedColumnScale, unreasonableMagnitude,
    logLevel, searchTimeoutMs }

/-- The settings that a configuration text gives. -/
def ofText (text : String) : Except SolverError (Settings Float) :=
  match (Toml.parse? text).bind ofEntries? with
  | some s => .ok s
  | none => .error .malformedSettings

/-- The settings that a file gives, by its contents if there is such a file. The contents are text
in UTF-8. -/
def ofFile (contents : Option ByteArray) : Except SolverError (Settings Float) :=
  match contents.bind String.fromUTF8? with
  | some text => ofText text
  | none => .error .unreadable

end SketchSolver.Settings
