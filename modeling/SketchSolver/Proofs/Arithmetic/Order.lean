import SketchSolver.Proofs.Arithmetic.Exact

/-!
# Comparisons

What the solver counts as zero is judged twice: a residual fails if it is above the tolerance, and
one is satisfied if it is at most the tolerance. That no number is both is all that is asked of the
order (`LawfulOrder`). It holds of exact arithmetic and of double precision, where a comparison with
the undefined value is false either way.
-/

namespace SketchSolver

/-- No number is above and at most another one. -/
class LawfulOrder (α : Type u) [Scalar α] : Prop where
  not_le_of_lt : ∀ {a b : α}, a < b → ¬ b ≤ a

/-- Exact numbers are ordered, and what is undefined is in no relation. -/
instance [Field K] [LinearOrder K] [PartialFunctions K] : LawfulOrder (Exact K) where
  not_le_of_lt {a b} hlt hle := by
    cases a with
    | undefined => exact hlt
    | number x =>
      cases b with
      | undefined => exact hlt
      | number y => exact not_le_of_gt (α := K) hlt hle

section
open Float.Model

/-- Comparing two numbers of double precision the other way round swaps the answer, if there is
one. -/
theorem unpackedFloat_compare_swap (a b : UnpackedFloat) :
    b.compare a = (a.compare b).map Ordering.swap := by
  have hsign : ∀ s t : UnpackedFloat.Sign, compare t s = (compare s t).swap := by
    intro s t
    cases s <;> cases t <;> rfl
  have hpair : ∀ (e e' : Int) (m m' : Nat), (compare e' e).then (compare m' m) =
      ((compare e e').then (compare m m')).swap := by
    intro e e' m m'
    rw [Ordering.swap_then, Std.OrientedOrd.eq_swap (a := e'), Std.OrientedOrd.eq_swap (a := m')]
  cases a with
  | notANumber => cases b <;> rfl
  | infinity s =>
    cases b with
    | infinity t => exact congrArg some (hsign s t)
    | notANumber => rfl
    | zero t | finite t => cases s <;> rfl
  | zero s =>
    cases b with
    | infinity t | finite t => cases t <;> rfl
    | notANumber | zero t => rfl
  | finite s m e _ =>
    cases b with
    | infinity t => cases t <;> rfl
    | notANumber => rfl
    | zero t => cases s <;> rfl
    | finite t m' e' _ =>
      cases s <;> cases t
      · exact congrArg (some ·.swap) (hpair e e' m m')
      · rfl
      · rfl
      · exact congrArg some (hpair e e' m m')

/-- Numbers of double precision are ordered, by what a comparison answers the other way round. -/
instance : LawfulOrder Float where
  not_le_of_lt {a b} hlt hle := by
    have hless : (a.toModel.unpack.compare b.toModel.unpack == some .lt) = true :=
      of_decide_eq_true hlt
    have hback : (b.toModel.unpack.compare a.toModel.unpack).any (·.isLE) = true :=
      of_decide_eq_true hle
    rw [beq_iff_eq] at hless
    rw [unpackedFloat_compare_swap, hless] at hback
    cases hback

end

end SketchSolver
