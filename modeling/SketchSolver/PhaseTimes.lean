import SketchSolver.Decimal.Shortest

/-!
# Phase times

How long the phases of a solve took, and what is said about it: a duration in a unit that suits it,
and the share of every phase that took more than half a percent of the whole. Durations are in
nanoseconds.
-/

namespace SketchSolver

/-- A duration as it is displayed. -/
structure Reading where
  unit : String
  value : Float
deriving Repr

/-- A duration in microseconds below a millisecond, in milliseconds below a second, and in seconds
from there on. Microseconds are whole ones, rounded down; milliseconds are those of the whole
microseconds. -/
def Reading.ofNanoseconds (duration : Nat) : Reading :=
  let microseconds := duration / 1000
  if microseconds < 1000 then ⟨" us", Float.ofNat microseconds⟩
  else if microseconds < 1000000 then ⟨" ms", Float.ofNat microseconds / 1000.0⟩
  else
    let whole := duration / 1000000000
    let rest := duration % 1000000000
    ⟨" s", Float.ofNat whole + Float.ofNat rest / 1000000000.0⟩

/-- The durations of the phases of one solve. -/
structure PhaseTimes where
  substitution : Nat := 0
  singleton : Nat := 0
  elimination : Nat := 0
  newton : Nat := 0
  finish : Nat := 0
deriving DecidableEq, Repr

namespace PhaseTimes

/-- The phases with their names. -/
def phases (t : PhaseTimes) : List (String × Nat) :=
  [("substitution", t.substitution), ("singleton", t.singleton),
    ("elimination", t.elimination), ("newton", t.newton), ("finish", t.finish)]

/-- The share of a phase in percent of the whole. -/
def percent (total duration : Nat) : Float :=
  100.0 * Float.ofNat duration / Float.ofNat (max total 1)

/-- What is displayed for a phase: its name with the unit of its duration, and its share, to a
thousandth of a percent, with its duration. -/
def entry (total : Nat) (phase : String × Nat) : String × String :=
  let reading := Reading.ofNanoseconds phase.2
  let share := (percent total phase.2 * 1000.0).round / 1000.0
  (phase.1 ++ " (%, " ++ String.ofList (reading.unit.toList.filter (· != ' ')) ++ ")",
    String.ofList (Decimal.text share ++ [',', ' '] ++ Decimal.text reading.value))

/-- What is displayed for the phases that took more than half a percent of the whole. -/
def shares (t : PhaseTimes) (total : Nat) : List (String × String) :=
  (t.phases.filter fun phase => 0.5 < percent total phase.2).map (entry total)

end PhaseTimes

end SketchSolver
