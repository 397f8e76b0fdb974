import SketchSolver.Expr.Basic

/-!
# Which parameters an expression refers to

Four questions about the parameters of an expression. None of them tells a handle from a
position: both refer to the parameter of the handle.
-/

namespace SketchSolver

namespace Expr

/-- The expression refers to the parameter. -/
def dependsOn (h : ParamHandle) : Expr α → Bool
  | .param p | .slot p _ => p == h
  | .const _ => false
  | .unary _ e => e.dependsOn h
  | .binary _ l r => l.dependsOn h || r.dependsOn h

/-- How many times the expression refers to the parameter. The count is a natural number, where the
solver has a word of 32 bits; the two agree as long as there are fewer than `2 ^ 32` references. -/
def countReferences (h : ParamHandle) : Expr α → Nat
  | .param p | .slot p _ => if p = h then 1 else 0
  | .const _ => 0
  | .unary _ e => e.countReferences h
  | .binary _ l r => l.countReferences h + r.countReferences h

/-- A list with an element at its end, unless the list has it already. -/
def appendNew (seen : List ParamHandle) (h : ParamHandle) : List ParamHandle :=
  if h ∈ seen then seen else seen ++ [h]

/-- The list extended by the parameters of the expression that are not in it, each once, in the
order of their first occurrence. -/
def paramsAfter (seen : List ParamHandle) : Expr α → List ParamHandle
  | .param h | .slot h _ => appendNew seen h
  | .const _ => seen
  | .unary _ e => e.paramsAfter seen
  | .binary _ l r => r.paramsAfter (l.paramsAfter seen)

/-- The parameters of the expression, each once, in the order of their first occurrence. -/
def params (e : Expr α) : List ParamHandle :=
  e.paramsAfter []

/-- Every position the expression refers to lies in a table of the given size. -/
def slotsBelow (size : Nat) : Expr α → Bool
  | .param _ | .const _ => true
  | .slot _ position => position < size
  | .unary _ e => e.slotsBelow size
  | .binary _ l r => l.slotsBelow size && r.slotsBelow size

end Expr

/-- How many parameters of some kind an expression refers to, one parameter counting once. -/
inductive Referenced where
  | none
  | exactly (h : ParamHandle)
  | multiple
deriving DecidableEq, Repr

/-- The parameters of two parts taken together. -/
def Referenced.merge : Referenced → Referenced → Referenced
  | .none, r => r
  | r, .none => r
  | .exactly a, .exactly b => if a = b then .exactly a else .multiple
  | _, _ => .multiple

/-- The parameters of the expression that satisfy `p`; all others count as constants. -/
def Expr.referenced (p : ParamHandle → Bool) : Expr α → Referenced
  | .param h | .slot h _ => if p h then .exactly h else .none
  | .const _ => .none
  | .unary _ e => e.referenced p
  | .binary _ l r => (l.referenced p).merge (r.referenced p)

end SketchSolver
