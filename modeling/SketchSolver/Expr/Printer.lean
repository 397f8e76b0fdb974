import SketchSolver.Expr.Isolation

/-!
# The text of an expression

Every operation of two operands stands in parentheses with blanks around its sign, a negation in
parentheses, a square as a parenthesised base with `^2`, and every other operation as its name
with a parenthesised operand. A parameter is `p` with the number of its handle, followed by `@`
and the position if it has one. The text of a number is a parameter of the printer.

`Expr.write` puts the characters of an expression in front of others, so the text of a tree is
built in one walk.
-/

namespace SketchSolver

/-- The decimal digits of a natural number. -/
def digits (n : Nat) : List Char :=
  (toString n).toList

/-- The sign of a binary operation with the blanks around it. -/
def BinaryOp.sign : BinaryOp → List Char
  | .add => [' ', '+', ' ']
  | .sub => [' ', '-', ' ']
  | .mul => [' ', '*', ' ']
  | .div => [' ', '/', ' ']

/-- What stands in front of the operand of a unary operation. -/
def UnaryOp.opening : UnaryOp → List Char
  | .neg => ['(', '-']
  | .square => ['(']
  | .sqrt => ['s', 'q', 'r', 't', '(']
  | .sin => ['s', 'i', 'n', '(']
  | .cos => ['c', 'o', 's', '(']
  | .arcsin => ['a', 'r', 'c', 's', 'i', 'n', '(']
  | .arccos => ['a', 'r', 'c', 'c', 'o', 's', '(']

/-- What stands behind the operand of a unary operation. -/
def UnaryOp.closing : UnaryOp → List Char
  | .square => [')', '^', '2']
  | _ => [')']

namespace Expr

/-- The characters of the expression followed by `rest`. -/
def write (number : α → List Char) : Expr α → (rest : List Char) → List Char
  | .param h, rest => 'p' :: (digits h.number.toNat ++ rest)
  | .slot h position, rest =>
    'p' :: (digits h.number.toNat ++ '@' :: (digits position ++ rest))
  | .const c, rest => number c ++ rest
  | .unary op e, rest => op.opening ++ e.write number (op.closing ++ rest)
  | .binary op l r, rest =>
    '(' :: l.write number (op.sign ++ r.write number (')' :: rest))

/-- The text of the expression. -/
def text (number : α → List Char) (e : Expr α) : String :=
  String.ofList (e.write number [])

end Expr

/-- What is said of an equation that cannot be solved for a parameter. -/
def IsolationError.message (number : α → List Char) : IsolationError α → String
  | .sumWithout h => "neither side of a sum depends on " ++ h.label
  | .differenceWithout h => "neither side of a difference depends on " ++ h.label
  | .productWithout h => "neither side of a product depends on " ++ h.label
  | .stuck h lhs => "cannot isolate " ++ h.label ++ " from " ++ lhs.text number

end SketchSolver
