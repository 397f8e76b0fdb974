import SketchSolver.Solve.Report
import SketchSolver.Expr.References
import SketchSolver.EquationSystem.Basic

/-!
# Documents

A document owns parameters, constraints and groups. The solver reads equations from it and writes
values back to it, and needs to know nothing else about it; so a document is any type with the
operations below, and no law is asked of them. Writing equations may change the document, since
labels that only display a value are measured on that occasion.
-/

namespace SketchSolver

/-- Types of documents with numbers of type `α`. -/
class Document (δ : Type u) (α : outParam (Type v)) where
  /-- The policy of a group. -/
  policy : δ → GroupHandle → Except SolverError Policy
  /-- Appends the equations of a group to a list, leaving out those of one constraint if one is
  given. -/
  writeEquations : δ → GroupHandle → (except : Option ConstraintHandle) → List (Equation α) →
    List (Equation α) × δ
  /-- The constraints of a group in the order of its table, with a mark on the coincidences of
  points. -/
  constraints : δ → GroupHandle → List (ConstraintHandle × Bool)
  hasConstraint : δ → ConstraintHandle → Bool
  /-- The parameters that a group owns, with their values. -/
  params : δ → GroupHandle → List (ParamHandle × α)
  /-- The value of a parameter of any group. -/
  paramValue? : δ → ParamHandle → Option α
  /-- The parameters that are being dragged. -/
  dragged : δ → List ParamHandle
  /-- Takes a value and a mark for a parameter. -/
  writeBack : δ → ParamHandle → α → (free : Bool) → δ
  /-- Takes the status of a group. -/
  recordStatus : δ → GroupHandle → Status → δ

namespace EquationSystem

/-- Keeps aside the values of the parameters that the equations refer to and the system does not
own. -/
def captureForeign [Document δ α] (s : EquationSystem α) (doc : δ) : EquationSystem α :=
  let used := s.equations.foldl (fun seen q => q.expr.paramsAfter seen) []
  used.foldl (fun s h =>
    if s.isUnknown h then s
    else
      match Document.paramValue? doc h with
      | some x => s.setForeign h x
      | none => s) s

/-- The system emptied and filled with the unknowns of a group, the dragged parameters and the
equations of the group except those of a constraint, along with the policy of the group and the
document after it has written its equations. -/
def load [Document δ α] (s : EquationSystem α) (doc : δ) (g : GroupHandle)
    (except : Option ConstraintHandle) : Except SolverError (Policy × EquationSystem α × δ) := do
  let policy ← Document.policy doc g
  let s := (Document.params doc g).foldl (fun s (h, x) => s.addParam h x) s.clear
  let s := { s with dragged := Document.dragged doc }
  let (equations, doc) := Document.writeEquations doc g except s.equations
  let s := { s with equations }
  return (policy, s.captureForeign doc, doc)

end EquationSystem

end SketchSolver
