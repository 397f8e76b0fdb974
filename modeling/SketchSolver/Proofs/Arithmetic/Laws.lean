import SketchSolver.Proofs.Arithmetic.Expressions
import SketchSolver.Proofs.Arithmetic.Numbers

/-!
# Laws of exact arithmetic

What the algorithms need of arithmetic without rounding, apart from what the numbers are
(`LawfulScalar`). Sums may be taken in any order, zero and one are neutral, and an operation has a
value only on operands that have one. That a product with zero is zero is said of numbers only:
where zero times undefined is undefined, no law makes it zero.
-/

namespace SketchSolver

/-- The number is not the outcome of an operation that has none. -/
def Scalar.HasValue [Scalar α] (a : α) : Prop :=
  Scalar.isUndefined a = false

/-- Whether a number is undefined can be asked. -/
instance [Scalar α] (a : α) : Decidable (Scalar.HasValue a) :=
  inferInstanceAs (Decidable (_ = _))

open Scalar (HasValue)

/-- Arithmetic without rounding. -/
class LawfulScalar (α : Type u) [Scalar α] : Prop where
  add_assoc (a b c : α) : a + b + c = a + (b + c)
  add_comm (a b : α) : a + b = b + a
  zero_add (a : α) : 0 + a = a
  sub_zero (a : α) : a - 0 = a
  neg_zero : (-0 : α) = 0
  mul_comm (a b : α) : a * b = b * a
  one_mul (a : α) : 1 * a = a
  zero_mul {a : α} : HasValue (0 * a) → 0 * a = 0
  zero_div {a : α} : HasValue (0 / a) → 0 / a = 0
  eq_of_beq {a b : α} : (a == b) = true → a = b
  /-- An operation has a value only on an operand that has one. -/
  hasValue_operand (op : UnaryOp) {a : α} : HasValue (op.apply a) → HasValue a
  /-- An operation has a value only on operands that have one. -/
  hasValue_operands (op : BinaryOp) {a b : α} : HasValue (op.apply a b) → HasValue a ∧ HasValue b

/-! ## Exact numbers -/

section
variable [Field K] [LinearOrder K] [PartialFunctions K]

/-- Exact numbers have values if they are numbers. -/
theorem Exact.hasValue_iff {a : Exact K} : HasValue a ↔ IsNumber a := by
  cases a with
  | number x => exact ⟨fun _ => ⟨x, rfl⟩, fun _ => rfl⟩
  | undefined => exact ⟨nofun, nofun⟩

/-- Exact arithmetic does not round. -/
instance : LawfulScalar (Exact K) where
  add_assoc := by
    rintro (x | _) (y | _) (z | _) <;> first | rfl | exact congrArg Exact.number (add_assoc x y z)
  add_comm := by
    rintro (x | _) (y | _) <;> first | rfl | exact congrArg Exact.number (add_comm x y)
  zero_add := by rintro (x | _) <;> first | rfl | exact congrArg Exact.number (zero_add x)
  sub_zero := Exact.sub_zero_eq
  neg_zero := congrArg Exact.number neg_zero
  mul_comm := by
    rintro (x | _) (y | _) <;> first | rfl | exact congrArg Exact.number (mul_comm x y)
  one_mul := by rintro (x | _) <;> first | rfl | exact congrArg Exact.number (one_mul x)
  zero_mul ha := Exact.zero_mul_of_isNumber (Exact.isNumber_mul.1 (Exact.hasValue_iff.1 ha)).2
  zero_div ha := by
    obtain ⟨x, hx⟩ := Exact.hasValue_iff.1 ha
    obtain ⟨y, z, hy, hz, _, hyz⟩ := Exact.div_eq_number.1 hx
    obtain rfl : 0 = y := Exact.number.inj hy
    rw [hx, ← hyz, zero_div]
    rfl
  eq_of_beq := by
    rintro (x | _) (y | _) hab
    · exact congrArg Exact.number (of_decide_eq_true hab)
    all_goals cases hab
  hasValue_operand _ _ ha := by
    obtain ⟨x, hx⟩ := Exact.hasValue_iff.1 ha
    exact Exact.hasValue_iff.2 (UnaryOp.apply_eq_number hx)
  hasValue_operands _ _ _ hab := by
    obtain ⟨x, hx⟩ := Exact.hasValue_iff.1 hab
    obtain ⟨ha, hb⟩ := BinaryOp.apply_eq_number hx
    exact ⟨Exact.hasValue_iff.2 ha, Exact.hasValue_iff.2 hb⟩

end

/-! ## Operands -/

section
variable [Scalar α] [LawfulScalar α] {a b : α}

namespace LawfulScalar

/-- Zero may be added on the right as well. -/
theorem add_zero (a : α) : a + 0 = a := by
  rw [add_comm, zero_add]

/-- One may be multiplied on the right as well. -/
theorem mul_one (a : α) : a * 1 = a := by
  rw [mul_comm, one_mul]

/-- A product with zero on the right is zero, if it has a value. -/
theorem mul_zero (ha : HasValue (a * 0)) : a * 0 = 0 := by
  rw [mul_comm] at ha ⊢
  exact zero_mul ha

/-- The operand of a negation that has a value has one. -/
theorem of_neg (h : HasValue (-a)) : HasValue a :=
  hasValue_operand .neg h

/-- The operands of a sum that has a value have values. -/
theorem of_add (h : HasValue (a + b)) : HasValue a ∧ HasValue b :=
  hasValue_operands .add h

/-- The operands of a difference that has a value have values. -/
theorem of_sub (h : HasValue (a - b)) : HasValue a ∧ HasValue b :=
  hasValue_operands .sub h

/-- The operands of a product that has a value have values. -/
theorem of_mul (h : HasValue (a * b)) : HasValue a ∧ HasValue b :=
  hasValue_operands .mul h

/-- The operands of a quotient that has a value have values. -/
theorem of_div (h : HasValue (a / b)) : HasValue a ∧ HasValue b :=
  hasValue_operands .div h

end LawfulScalar

end

end SketchSolver
