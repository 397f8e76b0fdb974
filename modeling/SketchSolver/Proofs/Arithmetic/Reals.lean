import Mathlib
import SketchSolver.Proofs.Arithmetic.Folding
import SketchSolver.Proofs.Arithmetic.Isolation
import SketchSolver.Proofs.Arithmetic.Laws

/-!
# Real numbers

On the reals every operation has a value, if not always one that is meant: a quotient by zero and
the root of a negative number are zero (`Scalar.real`). The laws of exact arithmetic hold without a
condition (`Scalar.lawful_real`), so folding changes neither the value of an expression nor that of
a derivative of it (`Expr.fold_correct`).

The derivative of an expression is that of the function it stands for (`Expr.hasDerivAt_eval`),
wherever each operation on what moves has one (`Expr.RegularAt`). Of the operations on what does not
move, nothing is asked: no derivative is taken there.
-/

namespace SketchSolver

open Classical in
/-- Arithmetic on the reals. -/
@[reducible] noncomputable def Scalar.real : Scalar ℝ where
  zero := 0
  one := 1
  natCast n := n
  add x y := x + y
  sub x y := x - y
  mul x y := x * y
  div x y := x / y
  neg x := -x
  lt x y := x < y
  le x y := x ≤ y
  beq x y := decide (x = y)
  decidableLT := inferInstance
  decidableLE := inferInstance
  abs x := |x|
  sqrt := Real.sqrt
  sin := Real.sin
  cos := Real.cos
  arcsin := Real.arcsin
  arccos := Real.arccos
  undefined := 0
  isUndefined _ := false
  isFinite _ := true
  epsilon := 0

/-- No operation is without a value, so the conditions of the laws are void. -/
instance Scalar.lawful_real : @LawfulScalar ℝ Scalar.real :=
  letI := Scalar.real
  { add_assoc := add_assoc
    add_comm := add_comm
    zero_add := zero_add
    sub_zero := sub_zero
    neg_zero := neg_zero
    mul_comm := mul_comm
    one_mul := one_mul
    zero_mul := fun _ => zero_mul _
    zero_div := fun _ => zero_div _
    eq_of_beq := of_decide_eq_true
    hasValue_operand := fun _ _ _ => rfl
    hasValue_operands := fun _ _ _ _ => ⟨rfl, rfl⟩ }

/-! ## Folded constants -/

/-- Where every operation has a value, as on the reals, folding changes neither the value of an
expression nor a derivative of it, and adds no reference to a parameter. -/
theorem Expr.fold_correct [Scalar α] [LawfulScalar α] (htotal : ∀ a : α, Scalar.HasValue a)
    (e : Expr α) (source : Lookup α) (h : ParamHandle) :
    e.fold.eval source = e.eval source ∧
      (e.fold.partialWrt h).eval source = (e.partialWrt h).eval source ∧
      e.fold.countReferences h ≤ e.countReferences h :=
  ⟨eval_fold_eq (htotal _), eval_partialWrt_fold (htotal _), countReferences_fold_le h e⟩

section
attribute [local instance] Scalar.real

/-- A square root, and a quotient by zero that a product with zero makes away with. -/
noncomputable def droppedQuotient : Expr ℝ :=
  let x : Expr ℝ := .slot ⟨1⟩ 0
  x / (.const 1 - .const 1) * .const 0 + .const 1 * x.sqrt

/-- Only the root is left. -/
theorem fold_droppedQuotient :
    (∀ a : ℝ, Scalar.HasValue a) ∧ droppedQuotient.fold = (Expr.slot ⟨1⟩ 0).sqrt ∧
      droppedQuotient.eval (.byHandle fun _ => 4) = 2 ∧
      (droppedQuotient.partialWrt ⟨1⟩).eval (.byHandle fun _ => 4) = 1 / 4 ∧
      droppedQuotient.fold.countReferences ⟨1⟩ ≤ 2 := by
  have htotal : ∀ a : ℝ, Scalar.HasValue a := fun _ => rfl
  have hzero : ((0 : ℝ) == 0) = true := decide_eq_true rfl
  have hone : ((1 : ℝ) == 1) = true := decide_eq_true rfl
  have hfold : droppedQuotient.fold = (Expr.slot ⟨1⟩ 0).sqrt := by
    have hne : ((0 : ℝ) == 1) = false := decide_eq_false zero_ne_one
    have hproduct : dropFactor (0 : ℝ) (.slot ⟨1⟩ 0 / .const (1 - 1))
        (.slot ⟨1⟩ 0 / .const (1 - 1) * .const 0) = .const 0 := by
      rw [dropFactor, hne, hzero, if_neg Bool.false_ne_true, if_pos rfl]
    have hfactor : dropFactor (1 : ℝ) (Expr.slot ⟨1⟩ 0).sqrt
        (.const 1 * (Expr.slot ⟨1⟩ 0).sqrt) = (Expr.slot ⟨1⟩ 0).sqrt := if_pos hone
    exact (congrArg₂ BinaryOp.add.fold hproduct hfactor).trans (if_pos hzero)
  have hroot : Real.sqrt 4 = 2 := by
    rw [show (4 : ℝ) = 2 ^ 2 by norm_num]
    exact Real.sqrt_sq zero_le_two
  obtain ⟨heval, hpartial, hcount⟩ :=
    Expr.fold_correct htotal droppedQuotient (.byHandle fun _ => 4) ⟨1⟩
  rw [hfold] at heval hpartial
  refine ⟨htotal, hfold, heval.symm.trans hroot, hpartial.symm.trans ?_, hcount⟩
  change 1 / (((2 : ℕ) : ℝ) * Real.sqrt 4) = 1 / 4
  rw [hroot]
  norm_num
end

/-! ## Where an operation has a derivative -/

/-- The operation has a derivative at an operand of value `a`. -/
def UnaryOp.RegularAt : UnaryOp → (a : ℝ) → Prop
  | .sqrt, a => 0 < a
  | .arcsin, a | .arccos, a => -1 < a ∧ a < 1
  | _, _ => True

/-- The operation has a derivative at operands of which the right one has the value `b`. -/
def BinaryOp.RegularAt : BinaryOp → (b : ℝ) → Prop
  | .div, b => b ≠ 0
  | _, _ => True

attribute [local instance] Scalar.real

/-- The operation at the root has a derivative at the values of its operands. -/
def Expr.RegularAt (source : Lookup ℝ) : Expr ℝ → Prop
  | .unary op e => op.RegularAt (e.eval source)
  | .binary op _ r => op.RegularAt (r.eval source)
  | _ => True

/-! ## The chain rule -/

section
variable {f g : ℝ → ℝ} {f' g' x : ℝ}

/-- An operation on an operand that moves has the derivative that the chain rule gives. -/
theorem UnaryOp.hasDerivAt_apply {op : UnaryOp} (hf : HasDerivAt f f' x)
    (hregular : op.RegularAt (f x)) :
    HasDerivAt (fun t => op.apply (f t)) (op.tangent (f x) f') x := by
  cases op with
  | neg => exact hf.fun_neg
  | square =>
    refine (hf.fun_mul hf).congr_deriv ?_
    change f' * f x + f x * f' = ((2 : ℕ) : ℝ) * f x * f'
    push_cast
    ring
  | sqrt => exact hf.sqrt hregular.ne'
  | sin => exact hf.sin
  | cos => exact hf.cos.congr_deriv (neg_mul ..)
  | arcsin =>
    refine ((Real.hasDerivAt_arcsin hregular.1.ne' hregular.2.ne).comp x hf).congr_deriv ?_
    change 1 / Real.sqrt (1 - f x ^ 2) * f' = f' / Real.sqrt (1 - f x * f x)
    rw [one_div_mul_eq_div, sq]
  | arccos =>
    refine ((Real.hasDerivAt_arccos hregular.1.ne' hregular.2.ne).comp x hf).congr_deriv ?_
    change -(1 / Real.sqrt (1 - f x ^ 2)) * f' = -(f' / Real.sqrt (1 - f x * f x))
    rw [neg_mul, one_div_mul_eq_div, sq]

/-- An operation on operands that move has the derivative that the chain rule gives. -/
theorem BinaryOp.hasDerivAt_apply {op : BinaryOp} (hf : HasDerivAt f f' x) (hg : HasDerivAt g g' x)
    (hregular : op.RegularAt (g x)) :
    HasDerivAt (fun t => op.apply (f t) (g t)) (op.tangent (f x) (g x) f' g') x := by
  cases op with
  | add => exact hf.fun_add hg
  | sub => exact hf.fun_sub hg
  | mul => exact hf.fun_mul hg
  | div =>
    refine (hf.fun_div hg hregular).congr_deriv ?_
    rw [sq]
    rfl

end

namespace Expr

variable {source : Lookup ℝ} {h : ParamHandle} {e : Expr ℝ}

/-- A parameter that has the value it had changes nothing. -/
theorem eval_withValue_self [Scalar α] {source : Lookup α} {h : ParamHandle}
    (hslot : ∀ i, source.slot i h = source.value h) (e : Expr α) :
    e.eval (source.withValue h (source.value h)) = e.eval source := by
  refine eval_congr fun k _ => ?_
  by_cases hk : k = h
  · subst hk
    exact ⟨if_pos rfl, fun i => (if_pos rfl).trans (hslot i).symm⟩
  · exact ⟨if_neg hk, fun _ => if_neg hk⟩

/-- What does not refer to the parameter does not move with it. -/
theorem hasDerivAt_of_not_dependsOn (he : e.dependsOn h = false) (x : ℝ) :
    HasDerivAt (fun t => e.eval (source.withValue h t)) ((e.partialWrt h).eval source) x := by
  simp only [eval_withValue he, partialWrt_eq_zero he]
  exact hasDerivAt_const x _

/-- The partial derivative has the value of the derivative, where all operations on what depends on
the parameter have one. -/
theorem hasDerivAt_eval (hslot : ∀ i k, source.slot i k = source.value k)
    (hregular : ∀ part ∈ e.parts, part.dependsOn h = true → part.RegularAt source) :
    HasDerivAt (fun t => e.eval (source.withValue h t)) ((e.partialWrt h).eval source)
      (source.value h) := by
  have hpresent : ∀ e : Expr ℝ, e.eval (source.withValue h (source.value h)) = e.eval source :=
    eval_withValue_self fun i => hslot i h
  induction e with
  | param p | slot p i =>
    by_cases hp : p = h
    · subst hp
      simp only [partialWrt, eval, Lookup.withValue, if_true]
      exact hasDerivAt_id' _
    · refine hasDerivAt_of_not_dependsOn ?_ _
      exact beq_false_of_ne hp
  | const _ => exact hasDerivAt_of_not_dependsOn rfl _
  | unary op e ih =>
    cases hdep : e.dependsOn h with
    | false => exact hasDerivAt_of_not_dependsOn (e := .unary op e) hdep _
    | true =>
      have hd := ih fun part hpart => hregular part (List.mem_cons_of_mem _ hpart)
      have hroot : op.RegularAt (e.eval source) := hregular _ (List.mem_cons_self ..) hdep
      rw [partialWrt, if_pos hdep, UnaryOp.eval_chain, ← hpresent e]
      exact UnaryOp.hasDerivAt_apply hd (by rwa [hpresent])
  | binary op l r ihl ihr =>
    cases hdep : l.dependsOn h || r.dependsOn h with
    | false => exact hasDerivAt_of_not_dependsOn (e := .binary op l r) hdep _
    | true =>
      have hl := ihl fun part hpart =>
        hregular part (List.mem_cons_of_mem _ (List.mem_append_left _ hpart))
      have hr := ihr fun part hpart =>
        hregular part (List.mem_cons_of_mem _ (List.mem_append_right _ hpart))
      have hroot : op.RegularAt (r.eval source) := hregular _ (List.mem_cons_self ..) hdep
      rw [partialWrt, if_pos hdep, BinaryOp.eval_chain, ← hpresent l, ← hpresent r]
      exact BinaryOp.hasDerivAt_apply hl hr (by rwa [hpresent])

end Expr

/-- The angle at which a side of a right triangle is seen, times its hypotenuse, with a quotient by
another parameter that is zero. -/
noncomputable def seenSide : Expr ℝ :=
  let side : Expr ℝ := .slot ⟨1⟩ 0
  let other : Expr ℝ := .param ⟨2⟩
  .unary .arcsin (side / other) * (side.square + other.square).sqrt - other / .param ⟨3⟩

/-- The sides of the triangle. -/
def rightTriangle : Lookup ℝ :=
  .byHandle fun h => if h = ⟨1⟩ then 3 else if h = ⟨2⟩ then 4 else 0

/-- The quotient by zero does not move with the side, and is not asked for a derivative. -/
theorem hasDerivAt_seenSide :
    (∀ i k, rightTriangle.slot i k = rightTriangle.value k) ∧
    (∀ part ∈ seenSide.parts, part.dependsOn ⟨1⟩ = true → part.RegularAt rightTriangle) ∧
    HasDerivAt (fun t => seenSide.eval (rightTriangle.withValue ⟨1⟩ t))
      ((seenSide.partialWrt ⟨1⟩).eval rightTriangle) 3 := by
  have hslot : ∀ i k, rightTriangle.slot i k = rightTriangle.value k := fun _ _ => rfl
  have hregular : ∀ part ∈ seenSide.parts, part.dependsOn ⟨1⟩ = true →
      part.RegularAt rightTriangle := by
    have hratio : (-1 : ℝ) < 3 / 4 ∧ (3 : ℝ) / 4 < 1 := by norm_num
    have hlength : (0 : ℝ) < 3 * 3 + 4 * 4 := by norm_num
    have hother : (4 : ℝ) ≠ 0 := by norm_num
    simp only [seenSide, HSub.hSub, Sub.sub, HMul.hMul, Mul.mul, HDiv.hDiv, Div.div, HAdd.hAdd,
      Add.add, Expr.square, Expr.sqrt, Expr.parts, List.cons_append, List.nil_append,
      List.forall_mem_cons]
    -- From the root down, left to right.
    refine ⟨fun _ => trivial, fun _ => trivial, fun _ => hratio, fun _ => hother, fun _ => trivial,
      fun _ => trivial, fun _ => hlength, fun _ => trivial, fun _ => trivial, fun _ => trivial,
      fun _ => trivial, fun _ => trivial, ?quotient, fun _ => trivial, fun _ => trivial,
      List.forall_mem_nil _⟩
    case quotient => exact fun hdep => absurd hdep Bool.false_ne_true
  exact ⟨hslot, hregular, Expr.hasDerivAt_eval hslot hregular⟩

end SketchSolver
