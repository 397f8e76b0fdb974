import Mathlib.Analysis.SpecialFunctions.Trigonometric.Inverse
import Mathlib.Data.Rat.Sqrt
import SketchSolver.Settings.Basic

/-!
# Exact arithmetic

The numbers of an ordered field together with one undefined value, as numbers a solver computes
with (`Exact`). An operation on numbers is the one of the field; it is undefined where the field has
no value for it (a division by zero, a square root of a negative number), and wherever an operand
is undefined. Every comparison with the undefined value is false.

The functions beside the operations of a field are given with their domains
(`PartialFunctions`). The reals have all of them. The rationals have the roots of squares and
nothing else, which is enough to run the solver on them.
-/

namespace SketchSolver

/-- The functions beside the operations of a field, each where it has a value. -/
class PartialFunctions (K : Type u) where
  sqrt : K → Option K
  sin : K → Option K
  cos : K → Option K
  arcsin : K → Option K
  arccos : K → Option K

/-- A square root is the nonnegative one. -/
class LawfulRoot (K : Type u) [Field K] [LinearOrder K] [PartialFunctions K] : Prop where
  sqrt_eq_some : ∀ {x y : K}, PartialFunctions.sqrt x = some y ↔ 0 ≤ y ∧ y * y = x

open Classical in
/-- The functions of the reals. -/
noncomputable instance : PartialFunctions ℝ where
  sqrt x := if 0 ≤ x then some (Real.sqrt x) else none
  sin x := some (Real.sin x)
  cos x := some (Real.cos x)
  arcsin x := if -1 ≤ x ∧ x ≤ 1 then some (Real.arcsin x) else none
  arccos x := if -1 ≤ x ∧ x ≤ 1 then some (Real.arccos x) else none

/-- The root of the reals is the nonnegative one. -/
instance : LawfulRoot ℝ where
  sqrt_eq_some {x y} := by
    simp only [PartialFunctions.sqrt, Option.ite_none_right_eq_some, Option.some.injEq]
    constructor
    · rintro ⟨hx, rfl⟩
      exact ⟨Real.sqrt_nonneg x, Real.mul_self_sqrt hx⟩
    · rintro ⟨hy, rfl⟩
      exact ⟨mul_self_nonneg y, Real.sqrt_mul_self hy⟩

/-- The functions of the rationals, as far as they are wanted. -/
instance : PartialFunctions ℚ where
  sqrt x := if Rat.sqrt x * Rat.sqrt x = x then some (Rat.sqrt x) else none
  sin _ := none
  cos _ := none
  arcsin _ := none
  arccos _ := none

/-- A root of a square of rationals is the nonnegative one, and nothing else has a root. -/
instance : LawfulRoot ℚ where
  sqrt_eq_some {x y} := by
    simp only [PartialFunctions.sqrt, Option.ite_none_right_eq_some, Option.some.injEq]
    constructor
    · rintro ⟨hx, rfl⟩
      exact ⟨Rat.sqrt_nonneg x, hx⟩
    · rintro ⟨hy, rfl⟩
      rw [Rat.sqrt_eq, abs_of_nonneg hy]
      exact ⟨rfl, rfl⟩

/-- A number, or the outcome of an operation that has none. -/
inductive Exact (K : Type u) where
  | number (x : K)
  | undefined
deriving DecidableEq, Repr

namespace Exact

/-- The value of a partial function. -/
def ofOption : Option K → Exact K
  | some x => .number x
  | none => .undefined

/-- An operation on one operand, where it has a value. -/
def lift (f : K → Option K) : Exact K → Exact K
  | .number x => ofOption (f x)
  | .undefined => .undefined

/-- An operation on two operands, where it has a value. -/
def lift₂ (f : K → K → Option K) : Exact K → Exact K → Exact K
  | .number x, .number y => ofOption (f x y)
  | _, _ => .undefined

/-- A relation of two numbers. -/
def Both (r : K → K → Prop) : Exact K → Exact K → Prop
  | .number x, .number y => r x y
  | _, _ => False

/-- Two values are compared if their numbers can be. -/
instance {r : K → K → Prop} [DecidableRel r] : DecidableRel (Both r)
  | .number x, .number y => inferInstanceAs (Decidable (r x y))
  | .number _, .undefined => isFalse id
  | .undefined, .number _ => isFalse id
  | .undefined, .undefined => isFalse id

variable [Field K] [LinearOrder K] [PartialFunctions K]

/-- Exact arithmetic. -/
instance : Scalar (Exact K) where
  zero := .number 0
  one := .number 1
  natCast n := .number n
  add := lift₂ fun x y => some (x + y)
  sub := lift₂ fun x y => some (x - y)
  mul := lift₂ fun x y => some (x * y)
  div := lift₂ fun x y => if y = 0 then none else some (x / y)
  neg := lift fun x => some (-x)
  lt := Both (· < ·)
  le := Both (· ≤ ·)
  beq a b := decide (Both (· = ·) a b)
  decidableLT := inferInstanceAs (DecidableRel (Both (· < ·)))
  decidableLE := inferInstanceAs (DecidableRel (Both (· ≤ ·)))
  abs := lift fun x => some |x|
  sqrt := lift PartialFunctions.sqrt
  sin := lift PartialFunctions.sin
  cos := lift PartialFunctions.cos
  arcsin := lift PartialFunctions.arcsin
  arccos := lift PartialFunctions.arccos
  undefined := .undefined
  isUndefined
    | .number _ => false
    | .undefined => true
  isFinite
    | .number _ => true
    | .undefined => false
  epsilon := .number 0

/-! ## Operations that have a value -/

variable {a b : Exact K} {x y z : K}

/-- Numbers are added as in the field. -/
theorem number_add (x y : K) : (.number x + .number y : Exact K) = .number (x + y) := rfl

/-- Numbers are subtracted as in the field. -/
theorem number_sub (x y : K) : (.number x - .number y : Exact K) = .number (x - y) := rfl

/-- Numbers are multiplied as in the field. -/
theorem number_mul (x y : K) : (.number x * .number y : Exact K) = .number (x * y) := rfl

/-- Numbers are negated as in the field. -/
theorem neg_number (x : K) : (-.number x : Exact K) = .number (-x) := rfl

/-- A sum is a number only if both sides are. -/
theorem add_eq_number : a + b = .number z ↔
    ∃ x y, a = .number x ∧ b = .number y ∧ x + y = z := by
  cases a <;> cases b <;> simp [HAdd.hAdd, Add.add, lift₂, ofOption]

/-- A difference is a number only if both sides are. -/
theorem sub_eq_number : a - b = .number z ↔
    ∃ x y, a = .number x ∧ b = .number y ∧ x - y = z := by
  cases a <;> cases b <;> simp [HSub.hSub, Sub.sub, lift₂, ofOption]

/-- A product is a number only if both sides are, even if one of them is zero. -/
theorem mul_eq_number : a * b = .number z ↔
    ∃ x y, a = .number x ∧ b = .number y ∧ x * y = z := by
  cases a <;> cases b <;> simp [HMul.hMul, Mul.mul, lift₂, ofOption]

/-- A quotient is a number only if both sides are, and the divisor is not zero. -/
theorem div_eq_number : a / b = .number z ↔
    ∃ x y, a = .number x ∧ b = .number y ∧ y ≠ 0 ∧ x / y = z := by
  cases a with
  | undefined => cases b <;> simp [HDiv.hDiv, Div.div, lift₂]
  | number x =>
    cases b with
    | undefined => simp [HDiv.hDiv, Div.div, lift₂]
    | number y => by_cases hy : y = 0 <;> simp [HDiv.hDiv, Div.div, lift₂, ofOption, hy]

/-- A negation is a number only if its operand is. -/
theorem neg_eq_number : -a = .number z ↔ ∃ x, a = .number x ∧ -x = z := by
  cases a <;> simp [Neg.neg, lift, ofOption]

/-- A root is a number only if its operand is the square of it, and it is not negative. -/
theorem sqrt_eq_number [LawfulRoot K] :
    Scalar.sqrt a = .number z ↔ ∃ x, a = .number x ∧ 0 ≤ z ∧ z * z = x := by
  cases a with
  | undefined => simp [Scalar.sqrt, lift]
  | number x =>
    have hroot : Scalar.sqrt (.number x : Exact K) = .number z ↔
        PartialFunctions.sqrt x = some z := by
      cases hx : PartialFunctions.sqrt x <;> simp [Scalar.sqrt, lift, ofOption, hx]
    rw [hroot, LawfulRoot.sqrt_eq_some]
    exact ⟨fun h => ⟨x, rfl, h⟩, fun ⟨_, heq, h⟩ => by cases heq; exact h⟩

/-- What is found equal to a number is this number. -/
theorem beq_number : (a == .number x) = true ↔ a = .number x := by
  have hboth : (a == .number x) = decide (Both (· = ·) a (.number x)) := rfl
  rw [hboth, decide_eq_true_iff]
  cases a <;> simp [Both]

end Exact

/-- The standard limits and tolerances, as rational numbers. -/
def Settings.rational : Settings (Exact ℚ) where
  maxEquations := 2048
  convergeTolerance := .number (1 / 100000000)
  maxIterations := 50
  draggedColumnScale := .number (1 / 20)
  unreasonableMagnitude := .number 100000000000
  logLevel := none
  searchTimeoutMs := 5000
  freeColumnTolerance := .number (1 / 1000000000000)
  rankOf A := (PivotedQR.factorize A).rank

/-- The numbers of the standard settings, over the reals. -/
noncomputable def EquationSystem.realSettings : Settings (Exact ℝ) where
  maxEquations := 2048
  convergeTolerance := .number (1 / 100000000)
  maxIterations := 50
  draggedColumnScale := .number (1 / 20)
  unreasonableMagnitude := .number 100000000000
  logLevel := none
  searchTimeoutMs := 5000
  freeColumnTolerance := .number (1 / 1000000000000)
  rankOf A := (PivotedQR.factorize A).rank

end SketchSolver
