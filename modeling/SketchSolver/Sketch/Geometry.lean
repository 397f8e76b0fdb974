import SketchSolver.Expr.Eval
import SketchSolver.Sketch.Basic

/-!
# The geometry of a sketch

What entities and constraints are as expressions: the coordinates of a point, the equations of a
constraint, and the measure that a label displays. Something that refers to a missing entity, or
to one of another kind, has neither equations nor a measure.
-/

namespace SketchSolver

/-- The coordinates of a point. -/
structure PointExpr (α : Type u) where
  x : Expr α
  y : Expr α
deriving Repr

/-- The distance of two points. -/
def PointExpr.distance (a b : PointExpr α) : Expr α :=
  ((a.x - b.x).square + (a.y - b.y).square).sqrt

/-- The parameter that is the radius of an entity. -/
def EntityKind.radius? : EntityKind → Option ParamHandle
  | .circle _ radius => some radius
  | _ => none

namespace Sketch

/-! ## Entities -/

/-- The coordinates of a point, as expressions. -/
def point? (s : Sketch α) (e : EntityHandle) : Option (PointExpr α) :=
  match s.entity? e with
  | some { kind := .point x y, .. } => some ⟨.param x, .param y⟩
  | _ => none

/-- The center and the radius of a circle. -/
def circle? (s : Sketch α) (e : EntityHandle) : Option (PointExpr α × ParamHandle) :=
  match s.entity? e with
  | some { kind := .circle center radius, .. } => (s.point? center).map (·, radius)
  | _ => none

/-- The length of the segment between two points. -/
def segmentLength? (s : Sketch α) (ends : EntityHandle × EntityHandle) : Option (Expr α) := do
  let a ← s.point? ends.1
  let b ← s.point? ends.2
  return a.distance b

/-- The equations that an entity has of its own. -/
def entityEquations (s : Sketch α) (entity : Entity) : List (Expr α) :=
  match entity.kind with
  | .arc center start stop =>
    match s.segmentLength? (center, start), s.segmentLength? (center, stop) with
    | some l, some r => [l - r]
    | _, _ => []
  | .point .. | .circle .. => []

/-! ## Constraints -/

variable [Scalar α]

/-- The equations of a constraint, if all entities it refers to are there. -/
def constraintEquations? (s : Sketch α) : ConstraintKind α → Option (List (Expr α))
  | .pointsCoincident a b => do
    let a ← s.point? a
    let b ← s.point? b
    return [a.x - b.x, a.y - b.y]
  | .pointDistance a b distance => do
    let length ← s.segmentLength? (a, b)
    return [length - .const distance]
  | .horizontal a b => do
    let a ← s.point? a
    let b ← s.point? b
    return [a.y - b.y]
  | .vertical a b => do
    let a ← s.point? a
    let b ← s.point? b
    return [a.x - b.x]
  | .lock point x y => do
    let p ← s.point? point
    return [p.x - .const x, p.y - .const y]
  | .pointOnCircle point circle => do
    let p ← s.point? point
    let (center, radius) ← s.circle? circle
    return [p.distance center - .param radius]
  | .equalLength a b => do
    let a ← s.segmentLength? a
    let b ← s.segmentLength? b
    return [a - b]
  | .diameter circle diameter => do
    let (_, radius) ← s.circle? circle
    return [.const (2 : Nat) * .param radius - .const diameter]

/-- The equations of a constraint, none if an entity is missing. -/
def constraintEquations (s : Sketch α) (c : Constraint α) : List (Expr α) :=
  (s.constraintEquations? c.kind).getD []

/-! ## Measures -/

/-- The values of the parameters, undefined for one that is missing. -/
def lookup (s : Sketch α) : Lookup α :=
  .byHandle fun h =>
    match s.param? h with
    | some p => p.value
    | none => Scalar.undefined

/-- The coordinates of a point, undefined for an entity that is not a point. -/
def coordinates (s : Sketch α) (e : EntityHandle) : α × α :=
  match s.entity? e with
  | some { kind := .point x y, .. } => (s.lookup.value x, s.lookup.value y)
  | _ => (Scalar.undefined, Scalar.undefined)

/-- What the label of a constraint would display. -/
def measure? (s : Sketch α) : ConstraintKind α → Option α
  | .pointDistance a b _ => (s.segmentLength? (a, b)).map (·.eval s.lookup)
  | .diameter circle _ => do
    let (_, radius) ← s.circle? circle
    let p ← s.param? radius
    return ((2 : Nat) : α) * p.value
  | _ => none

/-- The constraint with its measure as label, if it has one. -/
def remeasured (s : Sketch α) (c : Constraint α) : Constraint α :=
  match s.measure? c.kind with
  | some x => c.withLabel x
  | none => c

end Sketch

end SketchSolver
