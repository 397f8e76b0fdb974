import SketchSolver.Expr.Basic

/-!
# Replacing parameters

What the solver puts in place of a parameter depends on the handle only: its position, or another
handle. Both replacements are instances of `Expr.bindParams`.
-/

namespace SketchSolver

namespace Expr

/-- The expression with `f h` in place of every reference to the parameter `h`. -/
def bindParams (f : ParamHandle → Expr α) : Expr α → Expr α
  | .param h | .slot h _ => f h
  | .const c => .const c
  | .unary op e => .unary op (e.bindParams f)
  | .binary op l r => .binary op (l.bindParams f) (r.bindParams f)

/-- The expression with every parameter that has a position written by that position, and every
other one by its handle. -/
def toSlots (position? : ParamHandle → Option Nat) : Expr α → Expr α :=
  bindParams fun h =>
    match position? h with
    | some position => .slot h position
    | none => .param h

/-- The expression with every parameter renamed and written by its handle. -/
def rename (f : ParamHandle → ParamHandle) : Expr α → Expr α :=
  bindParams fun h => .param (f h)

end Expr

end SketchSolver
