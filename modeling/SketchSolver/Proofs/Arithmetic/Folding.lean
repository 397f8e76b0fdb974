import SketchSolver.Proofs.Arithmetic.Derivatives
import SketchSolver.Proofs.Arithmetic.Laws

/-!
# Folded constants

Where arithmetic is exact, folding changes no value that is one (`Expr.eval_fold_eq`), and no
derivative either (`Expr.eval_partialWrt_fold`). Where there is no value it may make one, since a
product with zero is dropped whatever its other side is.

Folding drops parameters, so that a derivative that the unfolded expression takes by the chain rule
is zero for the folded one without one being taken. The chain rule says zero as well, as an
operation on operands that do not move does not move (`UnaryOp.tangent_zero`,
`BinaryOp.tangent_zero`), if it says anything.
-/

namespace SketchSolver

open Scalar (HasValue)
open LawfulScalar (eq_of_beq hasValue_operand hasValue_operands of_neg of_add of_sub of_mul of_div)

variable [Scalar α] {source : Lookup α} {h : ParamHandle} {a b da db : α}

/-- An operation on a folded operand has the value of the operation. -/
theorem UnaryOp.eval_fold (op : UnaryOp) (e : Expr α) :
    (op.fold e).eval source = op.apply (e.eval source) := by
  cases e <;> rfl

/-- What does not refer to a parameter does not after folding, and does not move with it. -/
theorem Expr.eval_partialWrt_fold_of_not_dependsOn {e : Expr α} (he : e.dependsOn h = false) :
    (e.fold.partialWrt h).eval source = (e.partialWrt h).eval source := by
  have hfold : e.fold.dependsOn h = false := by
    cases hdep : e.fold.dependsOn h with
    | false => rfl
    | true => exact (dependsOn_of_fold hdep).symm.trans he
  rw [partialWrt_eq_zero hfold, partialWrt_eq_zero he]

section
variable [LawfulScalar α]

/-! ## Values -/

/-- What is a constant zero has the value zero. -/
theorem Expr.eval_of_isZeroConst {e : Expr α} (he : e.isZeroConst = true) : e.eval source = 0 := by
  cases e with
  | const c => exact eq_of_beq he
  | param _ | slot _ _ | unary _ _ | binary _ _ _ => cases he

/-- A sum without a side that is zero has the value of the sum. -/
theorem eval_dropZero {c : α} {other rest : Expr α}
    (hzero : c = 0 → other.eval source = rest.eval source) :
    (dropZero c other rest).eval source = rest.eval source := by
  unfold dropZero
  split
  · next hc => exact hzero (eq_of_beq hc)
  · rfl

/-- A product without a side that is one, or with one that is zero, has the value of the
product. -/
theorem eval_dropFactor {c : α} {other rest : Expr α}
    (hone : c = 1 → other.eval source = rest.eval source) (hzero : c = 0 → rest.eval source = 0) :
    (dropFactor c other rest).eval source = rest.eval source := by
  unfold dropFactor
  split
  · next hc => exact hone (eq_of_beq hc)
  · split
    · next hc => exact (hzero (eq_of_beq hc)).symm
    · rfl

/-- An operation on folded operands has the value of the operation, where there is one. -/
theorem BinaryOp.eval_fold {op : BinaryOp} {l r : Expr α}
    (hvalue : HasValue (op.apply (l.eval source) (r.eval source))) :
    (op.fold l r).eval source = op.apply (l.eval source) (r.eval source) := by
  unfold BinaryOp.fold
  split
  · rfl
  · exact eval_dropZero fun hc => by rw [hc]; exact (LawfulScalar.add_zero _).symm
  · exact eval_dropZero fun hc => by rw [hc]; exact (LawfulScalar.zero_add _).symm
  · refine eval_dropFactor (fun hc => ?_) fun hc => ?_
    · rw [hc]
      exact (LawfulScalar.mul_one _).symm
    · rw [hc] at hvalue ⊢
      exact LawfulScalar.mul_zero hvalue
  · refine eval_dropFactor (fun hc => ?_) fun hc => ?_
    · rw [hc]
      exact (LawfulScalar.one_mul _).symm
    · rw [hc] at hvalue ⊢
      exact LawfulScalar.zero_mul hvalue
  · rfl

/-- Folding changes no value. -/
theorem Expr.eval_fold_eq {e : Expr α} (hvalue : HasValue (e.eval source)) :
    e.fold.eval source = e.eval source := by
  induction e with
  | param _ | slot _ _ | const _ => rfl
  | unary op e ih =>
    rw [fold, UnaryOp.eval_fold, ih (hasValue_operand op hvalue)]
    rfl
  | binary op l r ihl ihr =>
    obtain ⟨hl, hr⟩ := hasValue_operands op hvalue
    replace hvalue : HasValue (op.apply (l.fold.eval source) (r.fold.eval source)) := by
      rwa [ihl hl, ihr hr]
    rw [fold, BinaryOp.eval_fold hvalue, ihl hl, ihr hr]
    rfl

/-! ## The chain rule -/

/-- The derivative of an operation reads the value of the operand only if there is one. -/
theorem UnaryOp.tangent_congr {op : UnaryOp} {a' : α} (ha : HasValue a → a' = a)
    (hvalue : HasValue (op.tangent a da)) : op.tangent a' da = op.tangent a da := by
  have hcomplement : HasValue (Scalar.sqrt (1 - a * a)) → HasValue a := fun hc =>
    (of_mul (of_sub (hasValue_operand .sqrt hc)).2).1
  cases op with
  | neg => rfl
  | square => rw [ha (of_mul (of_mul hvalue).1).2]
  | sqrt => rw [ha (hasValue_operand .sqrt (of_mul (of_div hvalue).2).2)]
  | sin => rw [ha (hasValue_operand .cos (of_mul hvalue).1)]
  | cos => rw [ha (hasValue_operand .sin (of_mul (of_neg hvalue)).1)]
  | arcsin => rw [ha (hcomplement (of_div hvalue).2)]
  | arccos => rw [ha (hcomplement (of_div (of_neg hvalue)).2)]

/-- The derivative of an operation reads the values of the operands only if there are some. -/
theorem BinaryOp.tangent_congr {op : BinaryOp} {a' b' : α} (ha : HasValue a → a' = a)
    (hb : HasValue b → b' = b) (hvalue : HasValue (op.tangent a b da db)) :
    op.tangent a' b' da db = op.tangent a b da db := by
  cases op with
  | add | sub => rfl
  | mul => rw [ha (of_mul (of_add hvalue).2).1, hb (of_mul (of_add hvalue).1).2]
  | div =>
    have hsub := of_sub (of_div hvalue).1
    rw [ha (of_mul hsub.2).1, hb (of_mul hsub.1).2]

/-- A product with one moves as its other side does. -/
theorem BinaryOp.tangent_mul_one (hvalue : HasValue (BinaryOp.mul.tangent a 1 da 0)) :
    BinaryOp.mul.tangent a 1 da 0 = da := by
  have hzero := LawfulScalar.mul_zero (of_add hvalue).2
  simp only [tangent, LawfulScalar.mul_one, hzero, LawfulScalar.add_zero]

/-- A product with one on the left moves as its right side does. -/
theorem BinaryOp.tangent_one_mul (hvalue : HasValue (BinaryOp.mul.tangent 1 b 0 db)) :
    BinaryOp.mul.tangent 1 b 0 db = db := by
  have hzero := LawfulScalar.zero_mul (of_add hvalue).1
  simp only [tangent, LawfulScalar.one_mul, hzero, LawfulScalar.zero_add]

/-- A product with zero does not move. -/
theorem BinaryOp.tangent_mul_zero (hvalue : HasValue (BinaryOp.mul.tangent a 0 da 0)) :
    BinaryOp.mul.tangent a 0 da 0 = 0 := by
  have hadd := of_add hvalue
  simp only [tangent, LawfulScalar.mul_zero hadd.1, LawfulScalar.mul_zero hadd.2,
    LawfulScalar.zero_add]

/-- A product with zero on the left does not move. -/
theorem BinaryOp.tangent_zero_mul (hvalue : HasValue (BinaryOp.mul.tangent 0 b 0 db)) :
    BinaryOp.mul.tangent 0 b 0 db = 0 := by
  have hadd := of_add hvalue
  simp only [tangent, LawfulScalar.zero_mul hadd.1, LawfulScalar.zero_mul hadd.2,
    LawfulScalar.zero_add]

namespace Expr

/-- The chain rule holds also where the operand is not walked. -/
theorem eval_partialWrt_unary {op : UnaryOp} {e : Expr α}
    (hvalue : HasValue (op.tangent (e.eval source) ((e.partialWrt h).eval source))) :
    ((Expr.unary op e).partialWrt h).eval source =
      op.tangent (e.eval source) ((e.partialWrt h).eval source) := by
  rw [partialWrt]
  split
  · exact UnaryOp.eval_chain ..
  · next hdep =>
    rw [partialWrt_eq_zero (Bool.not_eq_true _ ▸ hdep)] at hvalue ⊢
    exact (UnaryOp.tangent_zero hvalue).symm

/-- The chain rule holds also where the operands are not walked. -/
theorem eval_partialWrt_binary {op : BinaryOp} {l r : Expr α}
    (hvalue : HasValue (op.tangent (l.eval source) (r.eval source) ((l.partialWrt h).eval source)
      ((r.partialWrt h).eval source))) :
    ((Expr.binary op l r).partialWrt h).eval source =
      op.tangent (l.eval source) (r.eval source) ((l.partialWrt h).eval source)
        ((r.partialWrt h).eval source) := by
  rw [partialWrt]
  split
  · exact BinaryOp.eval_chain ..
  · next hdep =>
    obtain ⟨hl, hr⟩ := Bool.or_eq_false_iff.1 (Bool.not_eq_true _ ▸ hdep)
    rw [partialWrt_eq_zero hl, partialWrt_eq_zero hr] at hvalue ⊢
    exact (BinaryOp.tangent_zero hvalue).symm

end Expr

/-! ## Derivatives -/

/-- A folded operation has the derivative of the operation. -/
theorem UnaryOp.eval_partialWrt_fold {op : UnaryOp} {e : Expr α}
    (hvalue : HasValue (op.tangent (e.eval source) ((e.partialWrt h).eval source))) :
    ((op.fold e).partialWrt h).eval source =
      op.tangent (e.eval source) ((e.partialWrt h).eval source) := by
  cases e with
  | const c => exact (UnaryOp.tangent_zero hvalue).symm
  | param _ | slot _ _ | unary _ _ | binary _ _ _ => exact Expr.eval_partialWrt_unary hvalue

/-- A sum without a side that is zero has the derivative of the sum. -/
theorem eval_partialWrt_dropZero {c d : α} {other rest : Expr α}
    (hzero : c = 0 → (other.partialWrt h).eval source = d)
    (hrest : (rest.partialWrt h).eval source = d) :
    ((dropZero c other rest).partialWrt h).eval source = d := by
  unfold dropZero
  split
  · next hc => exact hzero (eq_of_beq hc)
  · exact hrest

/-- A product without a side that is one, or with one that is zero, has the derivative of the
product. -/
theorem eval_partialWrt_dropFactor {c d : α} {other rest : Expr α}
    (hone : c = 1 → (other.partialWrt h).eval source = d) (hzero : c = 0 → d = 0)
    (hrest : (rest.partialWrt h).eval source = d) :
    ((dropFactor c other rest).partialWrt h).eval source = d := by
  unfold dropFactor
  split
  · next hc => exact hone (eq_of_beq hc)
  · split
    · next hc => exact (hzero (eq_of_beq hc)).symm
    · exact hrest

/-- A folded operation has the derivative of the operation. -/
theorem BinaryOp.eval_partialWrt_fold {op : BinaryOp} {l r : Expr α}
    (hvalue : HasValue (op.tangent (l.eval source) (r.eval source) ((l.partialWrt h).eval source)
      ((r.partialWrt h).eval source))) :
    ((op.fold l r).partialWrt h).eval source =
      op.tangent (l.eval source) (r.eval source) ((l.partialWrt h).eval source)
        ((r.partialWrt h).eval source) := by
  have hrest := Expr.eval_partialWrt_binary hvalue
  unfold BinaryOp.fold
  split
  · exact (BinaryOp.tangent_zero hvalue).symm
  · exact eval_partialWrt_dropZero (fun _ => (LawfulScalar.add_zero _).symm) hrest
  · exact eval_partialWrt_dropZero (fun _ => (LawfulScalar.zero_add _).symm) hrest
  · refine eval_partialWrt_dropFactor (fun hc => ?_) (fun hc => ?_) hrest
    · rw [hc] at hvalue ⊢
      exact (BinaryOp.tangent_mul_one hvalue).symm
    · rw [hc] at hvalue ⊢
      exact BinaryOp.tangent_mul_zero hvalue
  · refine eval_partialWrt_dropFactor (fun hc => ?_) (fun hc => ?_) hrest
    · rw [hc] at hvalue ⊢
      exact (BinaryOp.tangent_one_mul hvalue).symm
    · rw [hc] at hvalue ⊢
      exact BinaryOp.tangent_zero_mul hvalue
  · exact hrest

/-- Folding changes no derivative. -/
theorem Expr.eval_partialWrt_fold {e : Expr α} (hvalue : HasValue ((e.partialWrt h).eval source)) :
    (e.fold.partialWrt h).eval source = (e.partialWrt h).eval source := by
  induction e with
  | param _ | slot _ _ | const _ => rfl
  | unary op e ih =>
    cases hdep : e.dependsOn h with
    | false => exact eval_partialWrt_fold_of_not_dependsOn (e := .unary op e) hdep
    | true =>
      rw [partialWrt, if_pos hdep, UnaryOp.eval_chain] at hvalue ⊢
      have hd := ih (UnaryOp.hasValue_of_tangent hvalue)
      have hsame : op.tangent (e.fold.eval source) ((e.fold.partialWrt h).eval source) =
          op.tangent (e.eval source) ((e.partialWrt h).eval source) := by
        rw [hd, UnaryOp.tangent_congr eval_fold_eq hvalue]
      rw [fold, UnaryOp.eval_partialWrt_fold (hsame ▸ hvalue), hsame]
  | binary op l r ihl ihr =>
    cases hdep : l.dependsOn h || r.dependsOn h with
    | false => exact eval_partialWrt_fold_of_not_dependsOn (e := .binary op l r) hdep
    | true =>
      rw [partialWrt, if_pos hdep, BinaryOp.eval_chain] at hvalue ⊢
      obtain ⟨hdl, hdr⟩ := BinaryOp.hasValue_of_tangent hvalue
      have hsame : op.tangent (l.fold.eval source) (r.fold.eval source)
            ((l.fold.partialWrt h).eval source) ((r.fold.partialWrt h).eval source) =
          op.tangent (l.eval source) (r.eval source) ((l.partialWrt h).eval source)
            ((r.partialWrt h).eval source) := by
        rw [ihl hdl, ihr hdr, BinaryOp.tangent_congr eval_fold_eq eval_fold_eq hvalue]
      rw [fold, BinaryOp.eval_partialWrt_fold (hsame ▸ hvalue), hsame]

end

/-- Folding changes no number. -/
theorem Expr.eval_fold [Field K] [LinearOrder K] [PartialFunctions K] {source : Lookup (Exact K)}
    {e : Expr (Exact K)} {x : K} (hx : e.eval source = .number x) :
    e.fold.eval source = .number x :=
  (eval_fold_eq (Exact.hasValue_iff.2 ⟨x, hx⟩)).trans hx

end SketchSolver
