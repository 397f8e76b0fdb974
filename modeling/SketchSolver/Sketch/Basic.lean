import SketchSolver.HandleTable
import SketchSolver.Settings.Basic
import SketchSolver.Solve.Report

/-!
# Sketches

A sketch in the plane: parameters, entities made of them, constraints between the entities, and
groups that own all of these and are solved one at a time. Everything stands in tables and is
referred to by handle. A handle is given out once, by a counter, and is not checked when it is
used: what refers to a missing entity has no equations and no measure.
-/

namespace SketchSolver

/-- What an entity is. -/
inductive EntityKind where
  | point (x y : ParamHandle)
  | circle (center : EntityHandle) (radius : ParamHandle)
  /-- The start and the end of an arc are equally far from its center. -/
  | arc (center start stop : EntityHandle)
deriving DecidableEq, Repr

/-- An entity of a sketch. -/
structure Entity where
  handle : EntityHandle
  group : GroupHandle
  kind : EntityKind
deriving DecidableEq, Repr

/-- What a constraint asks for. -/
inductive ConstraintKind (α : Type u) where
  | pointsCoincident (a b : EntityHandle)
  | pointDistance (a b : EntityHandle) (distance : α)
  | horizontal (a b : EntityHandle)
  | vertical (a b : EntityHandle)
  /-- A point stays at given coordinates. -/
  | lock (point : EntityHandle) (x y : α)
  | pointOnCircle (point circle : EntityHandle)
  /-- Two segments, given by their end points, are equally long. -/
  | equalLength (a b : EntityHandle × EntityHandle)
  | diameter (circle : EntityHandle) (diameter : α)
deriving DecidableEq, Repr

namespace ConstraintKind

/-- The name of a kind of constraint. -/
def name : ConstraintKind α → String
  | .pointsCoincident .. => "PointsCoincident"
  | .pointDistance .. => "PointDistance"
  | .horizontal .. => "Horizontal"
  | .vertical .. => "Vertical"
  | .lock .. => "Lock"
  | .pointOnCircle .. => "PointOnCircle"
  | .equalLength .. => "EqualLength"
  | .diameter .. => "Diameter"

/-- The value that a user can give to a constraint of this kind. -/
def label? : ConstraintKind α → Option α
  | .pointDistance _ _ d => some d
  | .diameter _ d => some d
  | _ => none

/-- The constraint with another label, if it has one. -/
def withLabel (value : α) : ConstraintKind α → ConstraintKind α
  | .pointDistance a b _ => .pointDistance a b value
  | .diameter circle _ => .diameter circle value
  | kind => kind

/-- Two points are to coincide. -/
def isCoincidence : ConstraintKind α → Bool
  | .pointsCoincident .. => true
  | _ => false

end ConstraintKind

/-- A constraint of a sketch. -/
structure Constraint (α : Type u) where
  handle : ConstraintHandle
  group : GroupHandle
  kind : ConstraintKind α
  /-- The label only displays a measured value. -/
  reference : Bool := false
deriving DecidableEq, Repr

namespace Constraint

/-- The constraint has a label. -/
def isLabelled (c : Constraint α) : Bool :=
  c.kind.label?.isSome

/-- The constraint says that two points coincide. -/
def isCoincident (c : Constraint α) : Bool :=
  c.kind.isCoincidence

/-- The constraint with another label, if it has one. -/
def withLabel (value : α) (c : Constraint α) : Constraint α :=
  { c with kind := c.kind.withLabel value }

/-- Under the policy of its group, the constraint only displays a measured value. -/
def isReference (policy : Policy) (c : Constraint α) : Bool :=
  c.isLabelled && (c.reference || policy.allReference)

end Constraint

/-- A parameter of a sketch. -/
structure SketchParam (α : Type u) where
  handle : ParamHandle
  group : GroupHandle
  value : α
  /-- The value has been solved for. -/
  known : Bool := false
  /-- The last solve found that the parameter can move. -/
  free : Bool := false
deriving DecidableEq, Repr

/-- A group of a sketch. -/
structure Group where
  handle : GroupHandle
  name : String
  policy : Policy
  /-- The status of the last solve. -/
  status : Status := {}
deriving DecidableEq, Repr

/-- A sketch. -/
structure Sketch (α : Type u) where
  settings : Settings α
  params : List (SketchParam α) := []
  entities : List Entity := []
  constraints : List (Constraint α) := []
  groups : List Group := []
  /-- The parameters that are being dragged. -/
  dragged : List ParamHandle := []
  nextParam : ParamHandle := ⟨1⟩
  nextEntity : EntityHandle := ⟨1⟩
  nextConstraint : ConstraintHandle := ⟨1⟩

namespace Sketch

/-- The sketch without anything in it. -/
def empty (settings : Settings α) : Sketch α :=
  { settings }

/-! ## The tables -/

/-- The group with the handle. -/
def group? (s : Sketch α) (g : GroupHandle) : Option Group :=
  s.groups.find? (·.handle == g)

/-- The parameter with the handle. -/
def param? (s : Sketch α) (h : ParamHandle) : Option (SketchParam α) :=
  s.params.find? (·.handle == h)

/-- The entity with the handle. -/
def entity? (s : Sketch α) (e : EntityHandle) : Option Entity :=
  s.entities.find? (·.handle == e)

/-- The constraint with the handle. -/
def constraint? (s : Sketch α) (c : ConstraintHandle) : Option (Constraint α) :=
  s.constraints.find? (·.handle == c)

/-- The sketch with the parameter of a handle changed. -/
def updateParam (s : Sketch α) (h : ParamHandle) (f : SketchParam α → SketchParam α) : Sketch α :=
  { s with params := updateFirst (·.handle == h) f s.params }

/-- The sketch with the constraint of a handle changed. -/
def updateConstraint (s : Sketch α) (c : ConstraintHandle) (f : Constraint α → Constraint α) :
    Sketch α :=
  { s with constraints := updateFirst (·.handle == c) f s.constraints }

/-- The sketch with the group of a handle changed. -/
def updateGroup (s : Sketch α) (g : GroupHandle) (f : Group → Group) : Sketch α :=
  { s with groups := updateFirst (·.handle == g) f s.groups }

/-! ## Adding to a sketch -/

/-- Adds a group. Its policy is the default one with the time for searches that the settings
give. -/
def addGroup (s : Sketch α) (name : String) : GroupHandle × Sketch α :=
  let handle : GroupHandle := ⟨UInt32.ofNat s.groups.length + 1⟩
  let policy : Policy := { searchTimeoutMs := s.settings.searchTimeoutMs }
  (handle, { s with groups := s.groups ++ [{ handle, name, policy }] })

/-- Adds a parameter to a group. -/
def addParam (s : Sketch α) (g : GroupHandle) (value : α) : ParamHandle × Sketch α :=
  let handle := s.nextParam
  (handle,
   { s with
     nextParam := ⟨handle.number + 1⟩
     params := s.params ++ [{ handle, group := g, value }] })

/-- Adds an entity to a group. -/
def addEntity (s : Sketch α) (g : GroupHandle) (kind : EntityKind) : EntityHandle × Sketch α :=
  let handle := s.nextEntity
  (handle,
   { s with
     nextEntity := ⟨handle.number + 1⟩
     entities := s.entities ++ [{ handle, group := g, kind }] })

/-- Adds a constraint to a group. -/
def addConstraint (s : Sketch α) (g : GroupHandle) (kind : ConstraintKind α) :
    ConstraintHandle × Sketch α :=
  let handle := s.nextConstraint
  (handle,
   { s with
     nextConstraint := ⟨handle.number + 1⟩
     constraints := s.constraints ++ [{ handle, group := g, kind }] })

/-- Adds a point with its coordinates. -/
def addPoint (s : Sketch α) (g : GroupHandle) (x y : α) : EntityHandle × Sketch α :=
  let (x, s) := s.addParam g x
  let (y, s) := s.addParam g y
  s.addEntity g (.point x y)

/-- Adds a circle with its radius. -/
def addCircle (s : Sketch α) (g : GroupHandle) (center : EntityHandle) (radius : α) :
    EntityHandle × Sketch α :=
  let (radius, s) := s.addParam g radius
  s.addEntity g (.circle center radius)

/-- Adds an arc. -/
def addArc (s : Sketch α) (g : GroupHandle) (center start stop : EntityHandle) :
    EntityHandle × Sketch α :=
  s.addEntity g (.arc center start stop)

/-! ## Editing -/

/-- Makes the label of a constraint a displayed value, or a value that is asked for. -/
def setReference (s : Sketch α) (c : ConstraintHandle) (reference : Bool) : Sketch α :=
  s.updateConstraint c fun c => { c with reference }

/-- Changes the label of a constraint, if it has one. -/
def setLabel (s : Sketch α) (c : ConstraintHandle) (value : α) : Sketch α :=
  s.updateConstraint c (·.withLabel value)

/-- Removes a constraint. -/
def removeConstraint (s : Sketch α) (c : ConstraintHandle) : Sketch α :=
  { s with constraints := s.constraints.filter (·.handle != c) }

/-- Drags a point from now on, and nothing else; no change if the entity is not a point. -/
def dragPoint (s : Sketch α) (e : EntityHandle) : Sketch α :=
  match s.entity? e with
  | some { kind := .point x y, .. } => { s with dragged := [x, y] }
  | _ => s

/-- Drags nothing from now on. -/
def stopDragging (s : Sketch α) : Sketch α :=
  { s with dragged := [] }

/-- Gives a parameter a value. -/
def setParam (s : Sketch α) (h : ParamHandle) (value : α) : Sketch α :=
  s.updateParam h fun p => { p with value }

/-- Gives a group a policy. -/
def setPolicy (s : Sketch α) (g : GroupHandle) (policy : Policy) : Sketch α :=
  s.updateGroup g fun group => { group with policy }

end Sketch

end SketchSolver
