import SketchSolver.Error
import SketchSolver.HandleTable
import SketchSolver.Matrix.Sparse
import SketchSolver.Settings.Basic

/-!
# Systems of equations

The unknowns and equations of one solve, and what its phases leave behind. Unknowns stand in a
table and are addressed by position; a handle is resolved to the position of the last unknown that
has it. Parameters that others own are no unknowns, their values are kept aside as constants.

Which phase an unknown or an equation has been settled by is its state, and which step of that
phase is its stage. Everything is live at first.
-/

namespace SketchSolver

/-- What has become of an unknown. -/
inductive ParamState where
  /-- An unknown of the main system. -/
  | live
  /-- Equal to another unknown, from which it takes its value. -/
  | substituted
  /-- Fixed by an equation that refers to no other unknown. -/
  | solvedAlone
  /-- Recovered from its only equation after all others have their values. -/
  | eliminated
deriving DecidableEq, Repr

/-- What has become of an equation. -/
inductive EquationState where
  | live
  /-- An equality of two unknowns that substitution took care of. -/
  | satisfied
  | solvedAlone
  | eliminated
deriving DecidableEq, Repr

/-- An unknown. -/
structure Param (α : Type u) where
  handle : ParamHandle
  value : α
  /-- The value has been solved for. -/
  known : Bool := false
  /-- The unknown can move while all equations hold. -/
  free : Bool := false
  /-- The unknown that this one is equal to and has been substituted by. -/
  root : Option ParamHandle := none
  state : ParamState := .live
  stage : Nat := 0
deriving Repr

/-- An equation `expr = 0`. -/
structure Equation (α : Type u) where
  handle : EquationHandle
  expr : Expr α
  state : EquationState := .live
  stage : Nat := 0
deriving Repr

/-- A part of a system. -/
inductive Selection where
  /-- All that is still live. -/
  | live
  /-- What was solved alone at one stage. -/
  | alone (stage : Nat)
deriving DecidableEq, Repr

/-- The unknown is in the part. -/
def Selection.hasParam (sel : Selection) (p : Param α) : Bool :=
  match sel with
  | .live => p.state == .live
  | .alone stage => p.state == .solvedAlone && p.stage == stage

/-- The equation is in the part. -/
def Selection.hasEquation (sel : Selection) (q : Equation α) : Bool :=
  match sel with
  | .live => q.state == .live
  | .alone stage => q.state == .solvedAlone && q.stage == stage

/-- The linearization of a part of a system: its Jacobian and residuals as expressions, their
values at the point of the last evaluation, and the last step taken. -/
structure Linearization (α : Type u) where
  /-- The positions of the unknowns that the columns stand for. -/
  columns : List Nat
  /-- The positions of the equations that the rows stand for. -/
  rows : List Nat
  /-- The partial derivatives that are not identically zero. -/
  partials : List (Triplet (Expr α))
  /-- The left sides of the equations. -/
  residualExprs : List (Expr α)
  jacobian : SparseMatrix α
  residuals : List α
  /-- What the last step subtracts from the unknowns. -/
  step : List α
  /-- The weights of the columns in a step. -/
  weights : List α

/-- The linearization of nothing. -/
def Linearization.empty : Linearization α where
  columns := []
  rows := []
  partials := []
  residualExprs := []
  jacobian := .empty 0 0
  residuals := []
  step := []
  weights := []

/-- The unknowns eliminated in one round, each with the position of the equation that defines
it. -/
abbrev EliminationRound := HandleTable Nat

/-- The state of a solver. -/
structure EquationSystem (α : Type u) where
  settings : Settings α
  params : List (Param α)
  equations : List (Equation α)
  /-- The parameters that are being dragged. -/
  dragged : List ParamHandle
  /-- The values of parameters that others own. -/
  foreign : HandleTable α
  linearization : Linearization α
  /-- The rounds of elimination, the latest one first. -/
  elimination : List EliminationRound
  /-- The rank of the Jacobian, if it has been computed. -/
  rank : Option Nat
  /-- The number of columns less the rank, or `-1` if there is none. -/
  dof : Int

namespace EquationSystem

/-! ## Building a system -/

/-- The system without unknowns and equations. -/
def empty (settings : Settings α) : EquationSystem α where
  settings := settings
  params := []
  equations := []
  dragged := []
  foreign := []
  linearization := .empty
  elimination := []
  rank := none
  dof := -1

/-- The system emptied of all but its settings. -/
def clear (s : EquationSystem α) : EquationSystem α :=
  { s with
    params := []
    equations := []
    dragged := []
    foreign := []
    linearization := .empty
    elimination := []
    rank := none
    dof := -1 }

/-- The system with one more unknown. -/
def addParam (s : EquationSystem α) (h : ParamHandle) (value : α) : EquationSystem α :=
  { s with params := s.params ++ [{ handle := h, value }] }

/-- The system with one more equation. -/
def addEquation (s : EquationSystem α) (h : EquationHandle) (e : Expr α) : EquationSystem α :=
  { s with equations := s.equations ++ [{ handle := h, expr := e }] }

/-- The system with a value for a parameter that others own. -/
def setForeign (s : EquationSystem α) (h : ParamHandle) (value : α) : EquationSystem α :=
  { s with foreign := s.foreign.insert h value }

/-- The system with all unknowns and equations live again. -/
def clearTags (s : EquationSystem α) : EquationSystem α :=
  { s with
    params := s.params.map fun p => { p with state := .live, stage := 0, root := none }
    equations := s.equations.map fun q => { q with state := .live, stage := 0 }
    elimination := [] }

/-- The system with the unknown at a position changed. -/
def updateParam (s : EquationSystem α) (position : Nat) (f : Param α → Param α) :
    EquationSystem α :=
  { s with params := s.params.modify position f }

/-- The system with the equation at a position changed. -/
def updateEquation (s : EquationSystem α) (position : Nat) (f : Equation α → Equation α) :
    EquationSystem α :=
  { s with equations := s.equations.modify position f }

/-! ## Finding unknowns -/

/-- The position of the last unknown with the handle in a list that begins at `start`. -/
def lastPosition? (h : ParamHandle) : (start : Nat) → List (Param α) → Option Nat
  | _, [] => none
  | start, p :: rest =>
    match lastPosition? h (start + 1) rest with
    | some position => some position
    | none => if p.handle = h then some start else none

/-- The position of the unknown with the handle. -/
def position? (s : EquationSystem α) (h : ParamHandle) : Option Nat :=
  lastPosition? h 0 s.params

/-- The unknown with the handle. -/
def param? (s : EquationSystem α) (h : ParamHandle) : Option (Param α) :=
  (s.position? h).bind (s.params[·]?)

/-- The parameter is an unknown of the system. -/
def isUnknown (s : EquationSystem α) (h : ParamHandle) : Bool :=
  (s.position? h).isSome

/-- The parameter is being dragged. -/
def isDragged (s : EquationSystem α) (h : ParamHandle) : Bool :=
  s.dragged.contains h

/-! ## Values -/

/-- The values of a system: those of its unknowns first, then those kept aside. -/
def lookup [Scalar α] (s : EquationSystem α) : Lookup α where
  value h :=
    match s.param? h with
    | some p => p.value
    | none => (s.foreign.lookup h).getD Scalar.undefined
  slot position _ :=
    match s.params[position]? with
    | some p => p.value
    | none => Scalar.undefined

/-- The values of expressions, provided that they point to unknowns only. -/
def values [Scalar α] (s : EquationSystem α) (es : List (Expr α)) : Except (Fault α) (List α) :=
  if es.all (·.slotsBelow s.params.length) then .ok (es.map (·.eval s.lookup))
  else .error .outOfRange

/-- The value of an expression, provided that it points to unknowns only. -/
def value [Scalar α] (s : EquationSystem α) (e : Expr α) : Except (Fault α) α :=
  if e.slotsBelow s.params.length then .ok (e.eval s.lookup) else .error .outOfRange

/-! ## Parts of a system -/

/-- The positions of the unknowns and of the equations in a part, ascending. -/
def select (s : EquationSystem α) (sel : Selection) : List Nat × List Nat :=
  (s.params.zipIdx.filterMap fun (p, i) => if sel.hasParam p then some i else none,
   s.equations.zipIdx.filterMap fun (q, i) => if sel.hasEquation q then some i else none)

/-- How many unknowns and how many equations are live. -/
def countLive (s : EquationSystem α) : Nat × Nat :=
  (s.params.countP (·.state == .live), s.equations.countP (·.state == .live))

end EquationSystem

end SketchSolver
