/-!
# The numbers a solver computes with

Every algorithm of the library is written over an arbitrary type of numbers with the operations
below and with no law about them. `Float` is the instance that runs; an exact field with the same
operations is an instance too, so a statement about exact arithmetic and a run of the program are
about one and the same definition.

A type of numbers has an undefined value, the outcome of an operation without one (a square root
of a negative number, say) and the value of a parameter nobody owns. Comparisons are the type's
own: on `Float` every comparison with the undefined value is false.
-/

namespace SketchSolver

/-- The operations of the numbers a solver computes with. -/
class Scalar (α : Type u) extends
    Zero α, One α, NatCast α, Add α, Sub α, Mul α, Div α, Neg α, LT α, LE α, BEq α where
  /-- Comparisons can be decided. -/
  decidableLT : DecidableLT α
  /-- Comparisons can be decided. -/
  decidableLE : DecidableLE α
  abs : α → α
  sqrt : α → α
  sin : α → α
  cos : α → α
  arcsin : α → α
  arccos : α → α
  /-- The outcome of an operation that has none. -/
  undefined : α
  isUndefined : α → Bool
  /-- Neither undefined nor beyond the range of the type. -/
  isFinite : α → Bool
  /-- The distance from one to the next number, zero where the arithmetic is exact. -/
  epsilon : α

attribute [reducible, instance] Scalar.decidableLT Scalar.decidableLE

/-- Double precision arithmetic. -/
instance : Scalar Float where
  natCast := Float.ofNat
  decidableLT := inferInstance
  decidableLE := inferInstance
  abs := Float.abs
  sqrt := Float.sqrt
  sin := Float.sin
  cos := Float.cos
  arcsin := Float.asin
  arccos := Float.acos
  undefined := 0.0 / 0.0
  isUndefined := Float.isNaN
  isFinite := Float.isFinite
  epsilon := Float.scaleB 1.0 (-52)

end SketchSolver
