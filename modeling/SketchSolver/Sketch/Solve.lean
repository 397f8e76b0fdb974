import SketchSolver.Sketch.Geometry
import SketchSolver.Solve.Basic

/-!
# Solving a sketch

A sketch is a document. Parameters of other groups that a constraint refers to are constants for a
solve. A reference dimension (a labelled constraint that only displays its measure) writes no
equations; it is measured when the equations of its group are written, and once more after the
group has been solved.
-/

namespace SketchSolver.Sketch

/-! ## Writing equations -/

/-- Equations of one origin, numbered in their order. -/
def numbered (origin : EquationOrigin) (es : List (Expr α)) : List (Equation α) :=
  es.zipIdx.map fun (e, k) => { handle := ⟨origin, k⟩, expr := e }

/-- The constraint belongs to the group and is not the excepted one. -/
def isAsked (g : GroupHandle) (except : Option ConstraintHandle) (c : Constraint α) : Bool :=
  c.group == g && some c.handle != except

variable [Scalar α]

/-- The equations of a group under a policy, except those of a constraint: first those of
constraints, then those of entities. -/
def groupEquations (s : Sketch α) (g : GroupHandle) (policy : Policy)
    (except : Option ConstraintHandle) : List (Equation α) :=
  let driving := s.constraints.filter fun c =>
    isAsked g except c && !c.isReference policy && (!policy.relaxed || c.isCoincident)
  let entities := s.entities.filter (·.group == g)
  driving.flatMap (fun c => numbered (.constraint c.handle) (s.constraintEquations c)) ++
    entities.flatMap fun e => numbered (.entity e.handle) (s.entityEquations e)

/-- The sketch with the reference dimensions of a group measured, except those of a constraint. -/
def measureReferences (s : Sketch α) (g : GroupHandle) (policy : Policy)
    (except : Option ConstraintHandle) : Sketch α :=
  { s with
    constraints := s.constraints.map fun c =>
      if isAsked g except c && c.isReference policy then s.remeasured c else c }

/-- Appends the equations of a group to a list and measures its reference dimensions. A group that
is missing writes nothing. -/
def writeEquations (s : Sketch α) (g : GroupHandle) (except : Option ConstraintHandle)
    (out : List (Equation α)) : List (Equation α) × Sketch α :=
  match s.group? g with
  | none => (out, s)
  | some group =>
    (out ++ s.groupEquations g group.policy except, s.measureReferences g group.policy except)

/-- What a sketch answers to a solver. -/
instance : Document (Sketch α) α where
  policy s g :=
    match s.group? g with
    | some group => .ok group.policy
    | none => .error (.unknownGroup g)
  writeEquations := writeEquations
  constraints s g :=
    (s.constraints.filter (·.group == g)).map fun c => (c.handle, c.isCoincident)
  hasConstraint s c := (s.constraint? c).isSome
  params s g := (s.params.filter (·.group == g)).map fun p => (p.handle, p.value)
  paramValue? s h := (s.param? h).map (·.value)
  dragged s := s.dragged
  writeBack s h value free := s.updateParam h fun p => { p with value, known := true, free }
  recordStatus s g status := s.updateGroup g fun group => { group with status }

/-! ## Solving -/

/-- Measures the reference dimensions of a group. -/
def remeasure (s : Sketch α) (g : GroupHandle) : Sketch α :=
  match s.group? g with
  | some group => s.measureReferences g group.policy none
  | none => s

/-- Solves a group. -/
def solveGroup (s : Sketch α) (g : GroupHandle) (options : SolveOptions) (watch : Stopwatch) :
    Except (Fault α) (Except SolverError Report × Sketch α) := do
  let outcome ← (EquationSystem.empty s.settings).solve s g options watch
  match outcome.result with
  | .error e => return (.error e, outcome.document)
  | .ok report =>
    if report.result.isOkay then return (.ok report, outcome.document.remeasure g)
    return (.ok report, outcome.document)

/-- Checks a group at its present values; nothing moves. -/
def checkGroup (s : Sketch α) (g : GroupHandle) (findFree : Bool) (watch : Stopwatch) :
    Except (Fault α) (Except SolverError Report × Sketch α) := do
  let outcome ← (EquationSystem.empty s.settings).check s g true findFree watch
  return (outcome.result, outcome.document)

end SketchSolver.Sketch
