import SketchSolver.EquationSystem.Newton

/-!
# Equations of one unknown

A live equation that refers to exactly one unknown, which is live as well, fixes that unknown: in
closed form if the unknown occurs once and can be isolated, by Newton's iteration on the one
equation otherwise. Each such pair of an equation and an unknown has a stage of its own, counted
from one.
-/

namespace SketchSolver.EquationSystem

/-- The unknown that an equation fixes alone: its handle and its position. -/
def fixedAlone? (s : EquationSystem α) (q : Equation α) : Option (ParamHandle × Nat) :=
  if q.state != .live then none
  else
    match q.expr.referenced s.isUnknown with
    | .exactly h =>
      match s.position? h with
      | some i =>
        match s.params[i]? with
        | some p => if p.state == .live then some (h, i) else none
        | none => none
      | none => none
    | _ => none

variable [Scalar α]

/-- The value of the parameter for which the equation `e = 0` holds at the present values of all
others. -/
def valueFrom (s : EquationSystem α) (e : Expr α) (h : ParamHandle) : Except (Fault α) α :=
  match (s.slotForm e).isolate s.lookup h with
  | .error e => .error (.isolation e)
  | .ok rhs => s.value rhs

/-- Solves the equation `e = 0` for the unknown `h` at a position; false if that fails, in which
case the linearization is that of the one equation. -/
def solveAlone (s : EquationSystem α) (e : Expr α) (h : ParamHandle) (position stage : Nat) :
    Except (Fault α) (Bool × EquationSystem α) := do
  let f := s.slotForm e
  if f.countReferences h == 1 && f.canIsolate h then
    let x ← s.valueFrom e h
    let s := s.updateParam position fun p => { p with value := x }
    if s.settings.isUnreasonable x then
      let (written, s) := s.linearize (.alone stage)
      if written then return (false, ← s.evalResiduals)
      return (false, s)
    return (true, s.updateParam position fun p => { p with known := true })
  else
    let (written, s) := s.linearize (.alone stage)
    if !written then return (false, s)
    s.newton

/-- Solves the equations at the given positions that fix an unknown alone, the first one at the
given stage, until one of them fails. -/
def solveAloneFrom (stage : Nat) :
    List Nat → EquationSystem α → Except (Fault α) (Bool × EquationSystem α)
  | [], s => return (true, s)
  | k :: rest, s =>
    match s.equations[k]? with
    | none => solveAloneFrom stage rest s
    | some q =>
      match s.fixedAlone? q with
      | none => solveAloneFrom stage rest s
      | some (h, i) => do
        let s := s.updateEquation k fun q => { q with state := .solvedAlone, stage }
        let s := s.updateParam i fun p => { p with state := .solvedAlone, stage }
        let (solved, s) ← s.solveAlone q.expr h i stage
        if !solved then return (false, s)
        solveAloneFrom (stage + 1) rest s

/-- Solves every live equation of one live unknown, in the order of the table; false as soon as one
of them fails. -/
def solveSingletons (s : EquationSystem α) : Except (Fault α) (Bool × EquationSystem α) :=
  solveAloneFrom 1 (List.range s.equations.length) s

end SketchSolver.EquationSystem
