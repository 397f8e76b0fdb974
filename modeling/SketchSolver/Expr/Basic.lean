import SketchSolver.Handle
import SketchSolver.Scalar

/-!
# Expressions

The left side of an equation `e = 0`: a tree of operations over constants and parameters. A
parameter is written either by its handle or by its position in a table of values together with
its handle. The first form is what constraints are written in; the second is what an iteration
evaluates, since a position needs no search. Both stand for the same unknown, so every question
about parameters asks for the handle and answers the same for both.

Operations are data (`UnaryOp`, `BinaryOp`), and what an operation computes is one function on
each of the two types (`UnaryOp.apply`, `BinaryOp.apply`): evaluation and constant folding use the
same one.
-/

namespace SketchSolver

/-- Operations on one operand. -/
inductive UnaryOp where
  | neg
  | square
  | sqrt
  | sin
  | cos
  | arcsin
  | arccos
deriving DecidableEq, Repr

/-- Operations on two operands. -/
inductive BinaryOp where
  | add
  | sub
  | mul
  | div
deriving DecidableEq, Repr

/-- What a unary operation computes. The square is the product of the operand with itself. -/
def UnaryOp.apply [Scalar α] : UnaryOp → α → α
  | .neg, x => -x
  | .square, x => x * x
  | .sqrt, x => Scalar.sqrt x
  | .sin, x => Scalar.sin x
  | .cos, x => Scalar.cos x
  | .arcsin, x => Scalar.arcsin x
  | .arccos, x => Scalar.arccos x

/-- What a binary operation computes. -/
def BinaryOp.apply [Scalar α] : BinaryOp → α → α → α
  | .add, x, y => x + y
  | .sub, x, y => x - y
  | .mul, x, y => x * y
  | .div, x, y => x / y

/-- An expression over numbers of type `α`. -/
inductive Expr (α : Type u) where
  /-- A parameter. -/
  | param (h : ParamHandle)
  /-- A parameter together with its position in a table of values. -/
  | slot (h : ParamHandle) (position : Nat)
  | const (value : α)
  | unary (op : UnaryOp) (e : Expr α)
  | binary (op : BinaryOp) (l r : Expr α)
deriving DecidableEq, BEq, Repr

namespace Expr

/-! ## Writing expressions -/

instance : Inhabited (Expr α) := ⟨.param default⟩
instance : Neg (Expr α) := ⟨.unary .neg⟩
instance : Add (Expr α) := ⟨.binary .add⟩
instance : Sub (Expr α) := ⟨.binary .sub⟩
instance : Mul (Expr α) := ⟨.binary .mul⟩
instance : Div (Expr α) := ⟨.binary .div⟩

/-- The square of an expression. -/
def square (e : Expr α) : Expr α := .unary .square e

/-- The square root of an expression. -/
def sqrt (e : Expr α) : Expr α := .unary .sqrt e

/-! ## Looking at the root -/

/-- The expression is a constant equal to zero, of either sign. -/
def isZeroConst [Scalar α] : Expr α → Bool
  | .const c => c == 0
  | _ => false

/-- The handle of an expression that is a parameter. -/
def handle? : Expr α → Option ParamHandle
  | .param h | .slot h _ => some h
  | _ => none

/-- The operands of the root operation, left to right. -/
def operands : Expr α → List (Expr α)
  | .param _ | .slot .. | .const _ => []
  | .unary _ e => [e]
  | .binary _ l r => [l, r]

end Expr

end SketchSolver
