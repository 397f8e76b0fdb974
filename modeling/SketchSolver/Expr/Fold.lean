import SketchSolver.Expr.Basic

/-!
# Constant folding

Folding works bottom-up. An operation on constants becomes its value, and four identities drop an
operation that does nothing: `x + 0`, `0 + x`, `x * 1` and `1 * x` become `x`, and a product with
a constant zero becomes zero. Nothing else changes; `0 - x` stays a difference, so the
operations that isolation looks at (`Expr.canIsolate`) are still the ones that were written.
-/

namespace SketchSolver

/-- An operation on a folded operand. -/
def UnaryOp.fold [Scalar α] (op : UnaryOp) : Expr α → Expr α
  | .const c => .const (op.apply c)
  | e => .unary op e

/-- A sum of which one side is a constant that may be zero; `rest` is the unfolded sum. -/
def dropZero [Scalar α] (c : α) (other rest : Expr α) : Expr α :=
  if c == 0 then other else rest

/-- A product of which one side is a constant that may be one or zero; `rest` is the unfolded
product. -/
def dropFactor [Scalar α] (c : α) (other rest : Expr α) : Expr α :=
  if c == 1 then other else if c == 0 then .const 0 else rest

/-- An operation on two folded operands. -/
def BinaryOp.fold [Scalar α] : BinaryOp → Expr α → Expr α → Expr α
  | op, .const a, .const b => .const (op.apply a b)
  | .add, l, .const b => dropZero b l (.binary .add l (.const b))
  | .add, .const a, r => dropZero a r (.binary .add (.const a) r)
  | .mul, l, .const b => dropFactor b l (.binary .mul l (.const b))
  | .mul, .const a, r => dropFactor a r (.binary .mul (.const a) r)
  | op, l, r => .binary op l r

/-- Folds constants bottom-up. -/
def Expr.fold [Scalar α] : Expr α → Expr α
  | .param h => .param h
  | .slot h position => .slot h position
  | .const c => .const c
  | .unary op e => op.fold e.fold
  | .binary op l r => op.fold l.fold r.fold

/-- Folding leaves the constant zero. -/
def Expr.foldsToZero [Scalar α] (e : Expr α) : Bool :=
  e.fold.isZeroConst

end SketchSolver
