import SketchSolver.Document
import SketchSolver.EquationSystem.Rank
import SketchSolver.EquationSystem.Substitution

/-!
# Searching for constraints to remove

When equations are redundant, the constraints without which the rest would be independent are of
interest. Each constraint of the group is tried on a system of its own, loaded without it, at the
values that the main system has at that time. The coincidences of points are tried last. The search
has a limited time, and asks before every constraint, in both passes over them, whether it is used
up.

Time is no part of a computation, so the answers to that question are an argument: a `Deadline` is
the sequence of the answers.
-/

namespace SketchSolver

/-- For the number of a check, counted from zero, whether the time is used up at it. -/
abbrev Deadline := Nat → Bool

/-- For a number of milliseconds, the deadline that they set. -/
abbrev Stopwatch := Nat → Deadline

/-- The stopwatch on which nothing takes any time to speak of: no milliseconds are used up at once,
and any other number of them is never used up. -/
def Stopwatch.still : Stopwatch :=
  fun milliseconds _ => milliseconds == 0

/-- What a search for constraints to remove has found. -/
structure ConflictSearch where
  /-- The constraints without any one of which the others are independent. -/
  bad : List ConstraintHandle := []
  /-- The time was used up before every constraint was tried. -/
  timedOut : Bool := false
deriving DecidableEq, Repr

namespace EquationSystem

/-- The system with the values that the unknowns have in another one. -/
def withValuesOf (trial main : EquationSystem α) : EquationSystem α :=
  { trial with
    params := trial.params.map fun p =>
      match main.param? p.handle with
      | some current => { p with value := current.value }
      | none => p }

variable [Scalar α] [Document δ α]

/-- Loads the group without a constraint into the trial system and tells whether its equations are
independent at the values of the main system. If `strict`, equalities of unknowns count as
equations. -/
def independentWithout (main trial : EquationSystem α) (doc : δ) (g : GroupHandle)
    (c : ConstraintHandle) (strict : Bool) :
    Except (Fault α) (Except SolverError Bool × EquationSystem α × δ) :=
  match trial.load doc g (some c) with
  | .error e => .ok (.error e, trial, doc)
  | .ok (_, trial, doc) => do
    let trial := (trial.withValuesOf main).clearTags
    let trial := if strict then trial else trial.substitute.2
    let (written, trial) := trial.linearize .live
    if !written then return (.ok false, trial, doc)
    let trial ← trial.evalJacobian
    return (.ok (trial.jacobianRank == trial.linearization.rows.length), trial, doc)

/-- The search over a list of constraints, each with a mark that says whether it is to be tried;
`check` is the number of the next check. -/
def searchFrom (main : EquationSystem α) (g : GroupHandle) (strict : Bool)
    (deadline : Deadline) :
    (check : Nat) → List (ConstraintHandle × Bool) → ConflictSearch → EquationSystem α → δ →
    Except (Fault α) (Except SolverError ConflictSearch × δ)
  | _, [], found, _, doc => return (.ok found, doc)
  | check, (c, tried) :: rest, found, trial, doc =>
    if deadline check then return (.ok { found with timedOut := true }, doc)
    else if !tried then main.searchFrom g strict deadline (check + 1) rest found trial doc
    else do
      let (verdict, trial, doc) ← main.independentWithout trial doc g c strict
      match verdict with
      | .error e => return (.error e, doc)
      | .ok independent =>
        let found := if independent then { found with bad := found.bad ++ [c] } else found
        main.searchFrom g strict deadline (check + 1) rest found trial doc

/-- The constraints of the group without any one of which the others are independent. -/
def findConflicts (main : EquationSystem α) (doc : δ) (g : GroupHandle) (strict : Bool)
    (deadline : Deadline) : Except (Fault α) (Except SolverError ConflictSearch × δ) :=
  let constraints := Document.constraints doc g
  let passes := constraints.map (fun (c, coincident) => (c, !coincident)) ++ constraints
  main.searchFrom g strict deadline 0 passes {} (.empty main.settings) doc

end EquationSystem

end SketchSolver
