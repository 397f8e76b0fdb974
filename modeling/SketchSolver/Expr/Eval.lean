import SketchSolver.Expr.Basic

/-!
# Evaluation

An expression is evaluated against a source of values, which answers for a handle and for a
position. `Lookup.byHandle` is the source in which a position is an alias of its handle.
-/

namespace SketchSolver

/-- A source of parameter values. -/
structure Lookup (α : Type u) where
  /-- The value of a parameter. -/
  value : ParamHandle → α
  /-- The value at a position, where the parameter of the handle is written to stand. -/
  slot : Nat → ParamHandle → α

/-- The source that finds a position's value through its handle. -/
def Lookup.byHandle (value : ParamHandle → α) : Lookup α where
  value := value
  slot _ h := value h

/-- The value of an expression. -/
def Expr.eval [Scalar α] (source : Lookup α) : Expr α → α
  | .param h => source.value h
  | .slot h position => source.slot position h
  | .const c => c
  | .unary op e => op.apply (e.eval source)
  | .binary op l r => op.apply (l.eval source) (r.eval source)

end SketchSolver
