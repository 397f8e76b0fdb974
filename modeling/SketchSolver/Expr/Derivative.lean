import SketchSolver.Expr.References

/-!
# Partial derivatives

The usual rules, without simplification. A part that does not refer to the parameter has the
derivative zero and is not walked, so a derivative never holds a term `0 * x` of a whole subtree.
-/

namespace SketchSolver

/-- The derivative of `op e`, given the derivative `d` of `e`. -/
def UnaryOp.chain [Scalar α] (op : UnaryOp) (e d : Expr α) : Expr α :=
  let two : Expr α := .const (2 : Nat)
  let complement : Expr α := (.const 1 - e.square).sqrt
  match op with
  | .neg => -d
  | .square => two * e * d
  | .sqrt => d / (two * e.sqrt)
  | .sin => .unary .cos e * d
  | .cos => -(.unary .sin e * d)
  | .arcsin => d / complement
  | .arccos => -(d / complement)

/-- The derivative of `op l r`, given the derivatives `dl` and `dr` of `l` and `r`. -/
def BinaryOp.chain (op : BinaryOp) (l r dl dr : Expr α) : Expr α :=
  match op with
  | .add => dl + dr
  | .sub => dl - dr
  | .mul => dl * r + l * dr
  | .div => (dl * r - l * dr) / r.square

/-- The partial derivative with respect to the parameter `h`. -/
def Expr.partialWrt [Scalar α] (h : ParamHandle) : Expr α → Expr α
  | .param p | .slot p _ => .const (if p = h then 1 else 0)
  | .const _ => .const 0
  | .unary op e =>
    if e.dependsOn h then op.chain e (e.partialWrt h) else .const 0
  | .binary op l r =>
    if l.dependsOn h || r.dependsOn h then op.chain l r (l.partialWrt h) (r.partialWrt h)
    else .const 0

end SketchSolver
