import SketchSolver.Handle

/-!
# What a solve answers

The result of a solve, the report that its caller gets, the status that is kept on a group, and the
policy of a group, which says what a solve of it looks at.
-/

namespace SketchSolver

/-- The result of a solve or of a check. -/
inductive SolveResult where
  /-- All equations hold and none is redundant. -/
  | okay
  /-- No values were found. -/
  | didntConverge
  /-- All equations hold, and some are redundant. -/
  | redundantOkay
  /-- No values were found, and some equations are redundant. -/
  | redundantDidntConverge
  /-- There are too many equations, and nothing was computed. -/
  | tooManyUnknowns
deriving DecidableEq, Repr

namespace SolveResult

/-- The name by which a result is reported. -/
def name : SolveResult → String
  | .okay => "OKAY"
  | .didntConverge => "DIDNT_CONVERGE"
  | .redundantOkay => "REDUNDANT_OKAY"
  | .redundantDidntConverge => "REDUNDANT_DIDNT_CONVERGE"
  | .tooManyUnknowns => "TOO_MANY_UNKNOWNS"

/-- All results. -/
def all : List SolveResult :=
  [.okay, .didntConverge, .redundantOkay, .redundantDidntConverge, .tooManyUnknowns]

/-- All equations hold. -/
def isOkay : SolveResult → Bool
  | .okay | .redundantOkay => true
  | _ => false

/-- No values were found. -/
def isDivergence : SolveResult → Bool
  | .didntConverge | .redundantDidntConverge => true
  | _ => false

/-- The result where all equations hold, by whether none is redundant. -/
def ofConverged (independent : Bool) : SolveResult :=
  if independent then .okay else .redundantOkay

/-- The result where no values were found, by whether no equation is redundant. -/
def ofDiverged (independent : Bool) : SolveResult :=
  if independent then .didntConverge else .redundantDidntConverge

end SolveResult

/-- What the caller of a solve gets. -/
structure Report where
  result : SolveResult
  /-- The number of live unknowns less the rank, or `-1` if the rank was not computed. -/
  dof : Int := -1
  rank : Option Nat := none
  /-- The constraints that are to blame for a failure. -/
  bad : List ConstraintHandle := []
  /-- The search for constraints to remove was stopped, so `bad` may lack some. -/
  timedOut : Bool := false
deriving DecidableEq, Repr

/-- What is kept of the last solve of a group. -/
structure Status where
  result : SolveResult := .okay
  dof : Int := 0
  bad : List ConstraintHandle := []
  timedOut : Bool := false
deriving DecidableEq, Repr

/-- The status after a report. -/
def Report.status (r : Report) : Status where
  result := r.result
  dof := r.dof
  bad := r.bad
  timedOut := r.timedOut

/-- What a solve of a group looks at. -/
structure Policy where
  /-- Ranks are not computed. -/
  suppressDof : Bool := false
  /-- Redundant equations are no reason to look for constraints to remove. -/
  allowRedundant : Bool := false
  /-- Of the constraints, only coincidences of points count. -/
  relaxed : Bool := false
  /-- Every constraint with a label only displays its measured value. -/
  allReference : Bool := false
  /-- For how many milliseconds the search for constraints to remove may go on. -/
  searchTimeoutMs : Nat := 5000
deriving DecidableEq, Repr

end SketchSolver
