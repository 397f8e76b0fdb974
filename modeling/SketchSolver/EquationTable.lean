import SketchSolver.Document

/-!
# Tables of equations

The plainest document: one group, whose parameters and constraints are given as tables, and every
constraint by the left sides of its equations.
-/

namespace SketchSolver

/-- A parameter of a table. -/
structure TableParam (α : Type u) where
  handle : ParamHandle
  value : α
  free : Bool := false
deriving Repr

/-- A constraint of a table. -/
structure TableConstraint (α : Type u) where
  handle : ConstraintHandle
  /-- It says that two points coincide. -/
  coincident : Bool
  /-- The left sides of its equations. -/
  equations : List (Expr α)
deriving Repr

/-- A group given by its tables. -/
structure EquationTable (α : Type u) where
  params : List (TableParam α) := []
  /-- Parameters outside the group, with their values. -/
  foreign : List (ParamHandle × α) := []
  constraints : List (TableConstraint α) := []
  /-- Equations that are written along with those of the constraints. -/
  extra : List (EquationHandle × Expr α) := []
  dragged : List ParamHandle := []
  policy : Policy := {}
  /-- The status that was recorded last. -/
  status : Option Status := none
deriving Repr

namespace EquationTable

/-- The only group of a table. -/
def group : GroupHandle := ⟨1⟩

/-- The equations of a constraint. -/
def equationsOf (c : TableConstraint α) : List (Equation α) :=
  c.equations.zipIdx.map fun (e, k) => { handle := ⟨.constraint c.handle, k⟩, expr := e }

/-- All equations except those of a constraint. A relaxed group has only those of its coincidences,
and those that belong to no constraint. -/
def equations (t : EquationTable α) (except : Option ConstraintHandle) : List (Equation α) :=
  let written := t.constraints.filter fun c =>
    some c.handle != except && (!t.policy.relaxed || c.coincident)
  written.flatMap equationsOf ++ t.extra.map fun (h, e) => { handle := h, expr := e }

/-- The value of a parameter, in the group or outside of it. -/
def paramValue? (t : EquationTable α) (h : ParamHandle) : Option α :=
  match t.params.find? (·.handle == h) with
  | some p => some p.value
  | none => t.foreign.lookup h

/-- What a table answers to a solver. -/
instance : Document (EquationTable α) α where
  policy t g := if g = group then .ok t.policy else .error (.unknownGroup g)
  writeEquations t _ except out := (out ++ t.equations except, t)
  constraints t _ := t.constraints.map fun c => (c.handle, c.coincident)
  hasConstraint t c := t.constraints.any (·.handle == c)
  params t _ := t.params.map fun p => (p.handle, p.value)
  paramValue? := paramValue?
  dragged t := t.dragged
  writeBack t h x free :=
    { t with
      params := updateFirst (·.handle == h) (fun p => { p with value := x, free }) t.params }
  recordStatus t _ status := { t with status := some status }

end EquationTable

end SketchSolver
