/-!
# Handles

A handle is the identity of a parameter, an entity, a constraint or a group: a number that its
owner gives out once. The handle of an equation says what wrote the equation, so that a row of a
Jacobian that fails can be traced to the constraint it came from.
-/

namespace SketchSolver

/-- The identity of an unknown. -/
structure ParamHandle where
  number : UInt32
deriving DecidableEq, Repr, Inhabited

/-- The identity of a geometric entity. -/
structure EntityHandle where
  number : UInt32
deriving DecidableEq, Repr, Inhabited

/-- The identity of a constraint. -/
structure ConstraintHandle where
  number : UInt32
deriving DecidableEq, Repr, Inhabited

/-- The identity of a group of parameters and constraints that are solved together. -/
structure GroupHandle where
  number : UInt32
deriving DecidableEq, Repr, Inhabited

/-- What wrote an equation. -/
inductive EquationOrigin where
  | constraint (c : ConstraintHandle)
  | entity (e : EntityHandle)
  | group (g : GroupHandle)
deriving DecidableEq, Repr, Inhabited

/-- The identity of an equation: what wrote it, and its place among the equations of that origin. -/
structure EquationHandle where
  origin : EquationOrigin
  index : Nat
deriving DecidableEq, Repr, Inhabited

/-- The constraint that wrote the equation, if a constraint did. -/
def EquationHandle.constraint? (h : EquationHandle) : Option ConstraintHandle :=
  match h.origin with
  | .constraint c => some c
  | .entity _ | .group _ => none

/-- The equation was written by a constraint. -/
def EquationHandle.isFromConstraint (h : EquationHandle) : Bool :=
  h.constraint?.isSome

/-- How a message names a parameter. -/
def ParamHandle.label (h : ParamHandle) : String :=
  "ParamHandle(" ++ toString h.number.toNat ++ ")"

/-- How a message names a group. -/
def GroupHandle.label (g : GroupHandle) : String :=
  "GroupHandle(" ++ toString g.number.toNat ++ ")"

end SketchSolver
