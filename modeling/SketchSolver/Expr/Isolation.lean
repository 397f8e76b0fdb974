import SketchSolver.Expr.Eval
import SketchSolver.Expr.References

/-!
# Solving an equation for one of its parameters

The equation `e = 0` is read as `lhs = rhs` with `rhs = 0`, and the root operation of `lhs` is
moved to the other side until only the parameter is left:

| `lhs`     | parameter in | new `rhs`      |
|-----------|--------------|----------------|
| `a + b`   | `a`          | `rhs - b`      |
| `a + b`   | `b`          | `rhs - a`      |
| `a - b`   | `a`          | `rhs + b`      |
| `a - b`   | `b`          | `-(rhs - a)`   |
| `a * b`   | `a`          | `rhs / b`      |
| `a * b`   | `b`          | `rhs / a`      |
| `sqrt a`  | `a`          | `rhs^2`        |
| `a^2`     | `a`          | `±sqrt rhs`    |

Of the two roots of a square the one nearer to the present value of `a` is taken, the positive one
when both are equally near. No other operation can be moved; `Expr.canIsolate` tells beforehand
whether an equation can be solved in this way.
-/

namespace SketchSolver

/-- Why an equation cannot be solved for a parameter. -/
inductive IsolationError (α : Type u) where
  /-- A sum with the parameter in neither side. -/
  | sumWithout (h : ParamHandle)
  /-- A difference with the parameter in neither side. -/
  | differenceWithout (h : ParamHandle)
  /-- A product with the parameter in neither side. -/
  | productWithout (h : ParamHandle)
  /-- An expression whose root operation is not one that can be moved. -/
  | stuck (h : ParamHandle) (lhs : Expr α)
deriving Repr

namespace Expr

/-- The equation `e = 0` can be solved for `h`: the way down to the parameter passes only sums,
differences, products, squares and square roots, and each of them has the parameter in one operand
only. -/
def canIsolate (h : ParamHandle) : Expr α → Bool
  | .param p | .slot p _ => p == h
  | .unary .sqrt e | .unary .square e => e.canIsolate h
  | .binary .add l r | .binary .sub l r | .binary .mul l r =>
    match l.dependsOn h, r.dependsOn h with
    | true, false => l.canIsolate h
    | false, true => r.canIsolate h
    | _, _ => false
  | _ => false

/-- The root of `e^2 = rhs` that is nearer to the present value of `e`. -/
def nearerRoot [Scalar α] (source : Lookup α) (e rhs : Expr α) : Expr α :=
  let root := rhs.sqrt
  let present := e.eval source
  let positive := root.eval source
  if Scalar.abs (-positive - present) < Scalar.abs (present - positive) then -root else root

/-- What `h` equals when `lhs = rhs`. -/
def isolateFrom [Scalar α] (source : Lookup α) (h : ParamHandle) :
    (lhs rhs : Expr α) → Except (IsolationError α) (Expr α)
  | .param p, rhs => if p = h then .ok rhs else .error (.stuck h (.param p))
  | .slot p position, rhs => if p = h then .ok rhs else .error (.stuck h (.slot p position))
  | .binary .add l r, rhs =>
    if l.dependsOn h then l.isolateFrom source h (rhs - r)
    else if r.dependsOn h then r.isolateFrom source h (rhs - l)
    else .error (.sumWithout h)
  | .binary .sub l r, rhs =>
    if l.dependsOn h then l.isolateFrom source h (rhs + r)
    else if r.dependsOn h then r.isolateFrom source h (-(rhs - l))
    else .error (.differenceWithout h)
  | .binary .mul l r, rhs =>
    if l.dependsOn h then l.isolateFrom source h (rhs / r)
    else if r.dependsOn h then r.isolateFrom source h (rhs / l)
    else .error (.productWithout h)
  | .unary .sqrt e, rhs => e.isolateFrom source h rhs.square
  | .unary .square e, rhs => e.isolateFrom source h (nearerRoot source e rhs)
  | .const c, _ => .error (.stuck h (.const c))
  | .unary op e, _ => .error (.stuck h (.unary op e))
  | .binary op l r, _ => .error (.stuck h (.binary op l r))

/-- What `h` equals when the expression is zero. -/
def isolate [Scalar α] (source : Lookup α) (h : ParamHandle) (e : Expr α) :
    Except (IsolationError α) (Expr α) :=
  e.isolateFrom source h (.const 0)

end Expr

end SketchSolver
