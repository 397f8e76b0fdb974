import SketchSolver.Proofs.Arithmetic.Folding
import SketchSolver.Proofs.EquationSystem.Positions

/-!
# Equations that hold already

What an equation that holds is solved for has its present value (`Expr.eval_isolateFrom_of_holds`):
every operation that is undone gives back the value its operand has, and of two roots the one that
is the present value is the nearer one. The exception is a product. If the factor that is divided by
is zero, the other factor may have any value, its present one included, but the quotient has none
(`Expr.nonzeroFactors`, or `Expr.divisible` for values by handle).

Newton's iteration asks for more than that the equation holds: for the derivative to be defined
(`Expr.Differentiable`). A polynomial always has one (`Expr.differentiable_of_isPolynomial`).
-/

namespace SketchSolver

/-- The operation can be undone if the operand that is left has the value `other`. -/
def BinaryOp.undoable [Scalar α] (op : BinaryOp) (other : α) : Bool :=
  match op with
  | .mul => !(other == 0)
  | _ => true

/-- No factor that is divided by on the way down to `h` is zero at the values `v`. -/
def Expr.divisible [Scalar α] (v : ParamHandle → α) (h : ParamHandle) : Expr α → Bool
  | .unary _ e => e.divisible v h
  | .binary op l r =>
    if l.dependsOn h then op.undoable (r.eval (.byHandle v)) && l.divisible v h
    else op.undoable (l.eval (.byHandle v)) && r.divisible v h
  | _ => true

/-- No factor that is divided by on the way down to `h` is zero at the values of a source. -/
def Expr.nonzeroFactors [Scalar α] (source : Lookup α) (h : ParamHandle) : Expr α → Bool
  | .unary _ e => e.nonzeroFactors source h
  | .binary op l r =>
    if l.dependsOn h then op.undoable (r.eval source) && l.nonzeroFactors source h
    else op.undoable (l.eval source) && r.nonzeroFactors source h
  | _ => true

/-- The value of the reference to `h` that the way down ends at. -/
def Expr.presentValue [Scalar α] (source : Lookup α) (h : ParamHandle) : Expr α → α
  | .unary _ e => e.presentValue source h
  | .binary _ l r => if l.dependsOn h then l.presentValue source h else r.presentValue source h
  | e => e.eval source

section
variable [Scalar α] {h : ParamHandle}

/-- At values by handle the factors that are divided by are the ones of the condition for
isolation. -/
theorem Expr.nonzeroFactors_byHandle (v : ParamHandle → α) (e : Expr α) :
    e.nonzeroFactors (.byHandle v) h = e.divisible v h := by
  induction e with
  | param _ | slot _ _ | const _ => rfl
  | unary _ _ ih => exact ih
  | binary _ _ _ ihl ihr => rw [nonzeroFactors, divisible, ihl, ihr]

/-- A parameter that has one value however it is written has that value. -/
theorem Expr.presentValue_eq {source : Lookup α} (hslot : ∀ i, source.slot i h = source.value h)
    {e : Expr α} (he : e.dependsOn h = true) : e.presentValue source h = source.value h := by
  induction e with
  | param p =>
    obtain rfl : p = h := by rwa [dependsOn, beq_iff_eq] at he
    rfl
  | slot p i =>
    obtain rfl : p = h := by rwa [dependsOn, beq_iff_eq] at he
    exact hslot i
  | const _ => cases he
  | unary _ _ ih => exact ih he
  | binary _ l r ihl ihr =>
    rw [presentValue]
    split
    · next hl => exact ihl hl
    · next hl => exact ihr ((Bool.or_eq_true_iff.1 he).resolve_left hl)

end

section
variable [Field K] [LinearOrder K] [PartialFunctions K] {source : Lookup (Exact K)} {x y : K}
  {h : ParamHandle} {v : ParamHandle → Exact K}

/-! ## In closed form -/

/-- Undoing an operation on the left operand gives back its value. -/
theorem BinaryOp.eval_undoLeft_present {op : BinaryOp} {l r rhs : Expr (Exact K)} (hop : op ≠ .div)
    (hrhs : rhs.eval source = .number y)
    (hvalue : op.apply (l.eval source) (r.eval source) = .number y) :
    (op.undoLeft rhs r).eval source =
      if op.undoable (r.eval source) then l.eval source else .undefined := by
  obtain ⟨⟨a, ha⟩, b, hb⟩ := BinaryOp.apply_eq_number hvalue
  rw [ha, hb] at hvalue ⊢
  cases op with
  | add =>
    obtain rfl : a + b = y := Exact.number.inj hvalue
    change rhs.eval source - r.eval source = .number a
    rw [hrhs, hb, Exact.number_sub, add_sub_cancel_right]
  | sub =>
    obtain rfl : a - b = y := Exact.number.inj hvalue
    change rhs.eval source + r.eval source = .number a
    rw [hrhs, hb, Exact.number_add, sub_add_cancel]
  | mul =>
    obtain rfl : a * b = y := Exact.number.inj hvalue
    change rhs.eval source / r.eval source = _
    rw [hrhs, hb]
    by_cases hzero : b = 0
    · have hbeq : ((.number b : Exact K) == 0) = true := Exact.beq_number.2 (congrArg _ hzero)
      rw [BinaryOp.undoable, hbeq]
      exact congrArg Exact.ofOption (if_pos hzero)
    · have hbeq : ((.number b : Exact K) == 0) = false :=
        Bool.eq_false_iff.2 fun heq => hzero (Exact.number.inj (Exact.beq_number.1 heq))
      rw [BinaryOp.undoable, hbeq]
      exact Exact.div_eq_number.2 ⟨_, b, rfl, rfl, hzero, mul_div_cancel_right₀ a hzero⟩
  | div => exact absurd rfl hop

/-- Undoing an operation on the right operand gives back its value. -/
theorem BinaryOp.eval_undoRight_present {op : BinaryOp} {l r rhs : Expr (Exact K)} (hop : op ≠ .div)
    (hrhs : rhs.eval source = .number y)
    (hvalue : op.apply (l.eval source) (r.eval source) = .number y) :
    (op.undoRight rhs l).eval source =
      if op.undoable (l.eval source) then r.eval source else .undefined := by
  obtain ⟨⟨a, ha⟩, b, hb⟩ := BinaryOp.apply_eq_number hvalue
  cases op with
  | add =>
    have hcomm : BinaryOp.add.apply (r.eval source) (l.eval source) = .number y := by
      rw [ha, hb] at hvalue ⊢
      exact (congrArg Exact.number (add_comm b a)).trans hvalue
    exact BinaryOp.eval_undoLeft_present hop hrhs hcomm
  | mul =>
    have hcomm : BinaryOp.mul.apply (r.eval source) (l.eval source) = .number y := by
      rw [ha, hb] at hvalue ⊢
      exact (congrArg Exact.number (mul_comm b a)).trans hvalue
    exact BinaryOp.eval_undoLeft_present hop hrhs hcomm
  | sub =>
    rw [ha, hb] at hvalue
    obtain rfl : a - b = y := Exact.number.inj hvalue
    change -(rhs.eval source - l.eval source) = r.eval source
    rw [hrhs, ha, hb, Exact.number_sub, Exact.neg_number]
    congr 1
    ring
  | div => exact absurd rfl hop

section
variable [IsStrictOrderedRing K] [LawfulRoot K]

/-- Of the two roots of a square, its own is the nearer one. -/
theorem eval_nearerRoot_present {e rhs : Expr (Exact K)} (he : e.eval source = .number x)
    (hrhs : rhs.eval source = .number (x * x)) :
    (Expr.nearerRoot source e rhs).eval source = .number x := by
  have hroot : rhs.sqrt.eval source = .number |x| :=
    Exact.sqrt_eq_number.2 ⟨x * x, hrhs, abs_nonneg x, abs_mul_abs_self x⟩
  have hnear : Scalar.abs (-rhs.sqrt.eval source - e.eval source) <
      Scalar.abs (e.eval source - rhs.sqrt.eval source) ↔ |-|x| - x| < |x - (|x|)| := by
    rw [hroot, he]
    rfl
  unfold Expr.nearerRoot
  simp only [hnear]
  rcases le_or_gt 0 x with hx | hx
  · rw [abs_of_nonneg hx, sub_self, abs_zero, if_neg (not_lt.2 (abs_nonneg _)), hroot,
      abs_of_nonneg hx]
  · have hneg : -|x| = x := by rw [abs_of_neg hx, neg_neg]
    have hpos : 0 < |x - (|x|)| := abs_pos.2 (by rw [abs_of_neg hx]; linarith)
    rw [hneg, sub_self, abs_zero, if_pos hpos]
    change -(rhs.sqrt.eval source) = _
    rw [hroot, Exact.neg_number, hneg]

/-- What an equation that holds is solved for has the value it has, unless a factor to divide by is
zero. -/
theorem Expr.eval_isolateFrom_of_holds {lhs : Expr (Exact K)} (hcan : lhs.canIsolate h = true) :
    ∀ {rhs found : Expr (Exact K)} {y : K}, lhs.isolateFrom source h rhs = .ok found →
      lhs.eval source = .number y → rhs.eval source = .number y →
      found.eval source =
        if lhs.nonzeroFactors source h then lhs.presentValue source h else .undefined := by
  -- What has no value leaves no value to the parameter.
  have hundefined : ∀ {e rhs found : Expr (Exact K)}, e.isolateFrom source h rhs = .ok found →
      rhs.eval source = .undefined → found.eval source = .undefined := by
    intro e rhs found hfound hrhs
    refine Exact.eq_undefined ?_
    rintro ⟨x, hx⟩
    obtain ⟨y, hy⟩ := isNumber_of_isolateFrom hx e rhs hfound
    rw [hrhs] at hy
    cases hy
  induction lhs, hcan using Expr.induction_canIsolate with
  | param _ | slot _ _ =>
    intro rhs found y hfound hlhs hrhs
    rw [isolateFrom, if_pos rfl] at hfound
    cases hfound
    exact hrhs.trans hlhs.symm
  | sqrt e _ _ ih =>
    intro rhs found y hfound hlhs hrhs
    obtain ⟨x, hx, _, hxy⟩ := Exact.sqrt_eq_number.1 hlhs
    exact @ih rhs.square found (y * y) hfound (hx.trans (congrArg _ hxy.symm))
      (Exact.mul_eq_number.2 ⟨y, y, hrhs, hrhs, rfl⟩)
  | square e _ _ ih =>
    intro rhs found y hfound hlhs hrhs
    obtain ⟨x, x', hx, hx', hxy⟩ := Exact.mul_eq_number.1 hlhs
    obtain rfl : x = x' := Exact.number.inj (hx.symm.trans hx')
    refine ih hfound hx (eval_nearerRoot_present hx ?_)
    rw [hxy, hrhs]
  | left op l r _ _ hop hl hr ih =>
    intro rhs found y hfound hlhs hrhs
    rw [isolateFrom_left hop hl] at hfound
    have hback := BinaryOp.eval_undoLeft_present hop hrhs hlhs
    obtain ⟨⟨x, hx⟩, _⟩ := BinaryOp.apply_eq_number hlhs
    rw [nonzeroFactors, if_pos hl, presentValue, if_pos hl]
    cases hundo : op.undoable (r.eval source) with
    | true =>
      rw [hundo, if_pos rfl, hx] at hback
      exact ih hfound hx hback
    | false =>
      rw [hundo, if_neg Bool.false_ne_true] at hback
      exact hundefined hfound hback
  | right op l r _ _ hop hl hr ih =>
    intro rhs found y hfound hlhs hrhs
    rw [isolateFrom_right hop hl hr] at hfound
    have hback := BinaryOp.eval_undoRight_present hop hrhs hlhs
    obtain ⟨_, x, hx⟩ := BinaryOp.apply_eq_number hlhs
    rw [nonzeroFactors, if_neg (ne_true_of_eq_false hl), presentValue,
      if_neg (ne_true_of_eq_false hl)]
    cases hundo : op.undoable (l.eval source) with
    | true =>
      rw [hundo, if_pos rfl, hx] at hback
      exact ih hfound hx hback
    | false =>
      rw [hundo, if_neg Bool.false_ne_true] at hback
      exact hundefined hfound hback

/-- `Expr.eval_isolateFrom_of_holds` where a position is an alias of its handle. -/
theorem Expr.eval_isolateFrom_present {lhs rhs found : Expr (Exact K)}
    (hcan : lhs.canIsolate h = true) (hfound : lhs.isolateFrom (.byHandle v) h rhs = .ok found)
    (hlhs : lhs.eval (.byHandle v) = .number y) (hrhs : rhs.eval (.byHandle v) = .number y) :
    found.eval (.byHandle v) = if lhs.divisible v h then v h else .undefined := by
  have hpresent : lhs.presentValue (.byHandle v) h = v h :=
    presentValue_eq (fun _ => rfl) (dependsOn_of_canIsolate hcan)
  rw [eval_isolateFrom_of_holds hcan hfound hlhs hrhs, nonzeroFactors_byHandle, hpresent]

end

/-! ## By its derivative -/

/-- The derivative of the folded equation with respect to `h` is defined at the values `v`. -/
def Expr.Differentiable (v : ParamHandle → Exact K) (h : ParamHandle) (e : Expr (Exact K)) : Prop :=
  Exact.IsNumber ((e.fold.partialWrt h).fold.eval (.byHandle v))

end

section
variable [Field K] [LinearOrder K] [PartialFunctions K] {source : Lookup (Exact K)} {x : K}
  {h : ParamHandle} {v : ParamHandle → Exact K}

/-- An entry of a Jacobian is defined where the equation is differentiable. -/
theorem Expr.isNumber_partialWrt_slotForm {s : EquationSystem (Exact K)} {e : Expr (Exact K)} :
    Exact.IsNumber (((s.slotForm e).partialWrt h).fold.eval (.byHandle v)) ↔
      e.Differentiable v h := by
  rw [EquationSystem.eval_partialWrt_slotForm]
  rfl

/-! ## Polynomials -/

/-- The expression is a polynomial of its parameters. -/
def Expr.isPolynomial : Expr α → Bool
  | .unary op e => (op == .neg || op == .square) && e.isPolynomial
  | .binary op l r => op != .div && l.isPolynomial && r.isPolynomial
  | _ => true

/-- Folding leaves a polynomial one. -/
theorem Expr.isPolynomial_fold [Scalar α] {e : Expr α} (he : e.isPolynomial = true) :
    e.fold.isPolynomial = true := by
  induction e with
  | param _ | slot _ _ | const _ => rfl
  | unary op e ih =>
    obtain ⟨hop, he⟩ := Bool.and_eq_true_iff.1 he
    have he' := ih he
    rw [fold]
    cases hf : e.fold <;> simp_all [UnaryOp.fold, isPolynomial]
  | binary op l r ihl ihr =>
    simp only [isPolynomial, Bool.and_eq_true] at he
    obtain ⟨⟨hop, hl⟩, hr⟩ := he
    have hl' := ihl hl
    have hr' := ihr hr
    have hunfolded : (Expr.binary op l.fold r.fold).isPolynomial = true := by
      simp [isPolynomial, hop, hl', hr']
    rw [fold]
    unfold BinaryOp.fold
    split <;> simp_all [dropZero, dropFactor, isPolynomial, apply_ite isPolynomial]

/-- A polynomial has a derivative wherever it has a value. -/
theorem Expr.isNumber_partialWrt {e : Expr (Exact K)} (he : e.isPolynomial = true)
    (hvalue : Exact.IsNumber (e.eval source)) : Exact.IsNumber ((e.partialWrt h).eval source) := by
  have hconst : Exact.IsNumber ((Expr.const 0 : Expr (Exact K)).eval source) := Exact.isNumber_zero
  induction e with
  | param p | slot p _ =>
    change Exact.IsNumber (if p = h then 1 else 0)
    split <;> simp
  | const _ => exact hconst
  | unary op e ih =>
    simp only [isPolynomial, Bool.and_eq_true, Bool.or_eq_true, beq_iff_eq] at he
    rw [partialWrt]
    split
    case isFalse => exact hconst
    obtain ⟨x, hx⟩ := hvalue
    obtain ⟨y, hy⟩ := UnaryOp.apply_eq_number hx
    have hd := ih he.2 ⟨y, hy⟩
    obtain ⟨rfl | rfl, _⟩ := he
    · exact Exact.isNumber_neg.2 hd
    · exact Exact.isNumber_mul.2 ⟨Exact.isNumber_mul.2 ⟨Exact.isNumber_natCast 2, y, hy⟩, hd⟩
  | binary op l r ihl ihr =>
    simp only [isPolynomial, Bool.and_eq_true, bne_iff_ne] at he
    obtain ⟨⟨hop, hl⟩, hr⟩ := he
    rw [partialWrt]
    split
    case isFalse => exact hconst
    obtain ⟨x, hx⟩ := hvalue
    obtain ⟨hlx, hrx⟩ := BinaryOp.apply_eq_number hx
    have hdl := ihl hl hlx
    have hdr := ihr hr hrx
    cases op with
    | add => exact Exact.isNumber_add.2 ⟨hdl, hdr⟩
    | sub => exact Exact.isNumber_sub.2 ⟨hdl, hdr⟩
    | mul =>
      exact Exact.isNumber_add.2
        ⟨Exact.isNumber_mul.2 ⟨hdl, hrx⟩, Exact.isNumber_mul.2 ⟨hlx, hdr⟩⟩
    | div => exact absurd rfl hop

/-- A polynomial equation is differentiable where it holds. -/
theorem Expr.differentiable_of_isPolynomial {e : Expr (Exact K)} (he : e.isPolynomial = true)
    (hholds : e.eval (.byHandle v) = .number x) : e.Differentiable v h := by
  obtain ⟨d, hd⟩ := isNumber_partialWrt (h := h) (isPolynomial_fold he) ⟨x, eval_fold hholds⟩
  exact ⟨d, eval_fold hd⟩

end

end SketchSolver
