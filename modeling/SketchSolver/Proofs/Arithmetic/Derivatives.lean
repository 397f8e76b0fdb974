import Mathlib.Algebra.BigOperators.Ring.Finset
import SketchSolver.Expr.Derivative
import SketchSolver.Proofs.Arithmetic.Laws

/-!
# Derivatives over exact numbers

Where a partial derivative has a value, it has it by the chain rule (`UnaryOp.tangent`,
`BinaryOp.tangent`): the derivative of an operation is linear in the derivatives of its operands,
and has no value unless these have. A part without the parameter is not walked and counts zero,
which is what the chain rule would say of it.

So an expression of which several parameters have been replaced by one has, with respect to that
one, the sum of the derivatives with respect to them (`Expr.eval_partialWrt_bindParams`). This is
the chain rule for merged columns of a Jacobian.
-/

namespace SketchSolver

/-! ## The chain rule on values -/

/-- The derivative of an operation on an operand of value `a` whose derivative is `d`. -/
def UnaryOp.tangent [Scalar α] (op : UnaryOp) (a d : α) : α :=
  let complement := Scalar.sqrt (1 - a * a)
  match op with
  | .neg => -d
  | .square => (2 : Nat) * a * d
  | .sqrt => d / ((2 : Nat) * Scalar.sqrt a)
  | .sin => Scalar.cos a * d
  | .cos => -(Scalar.sin a * d)
  | .arcsin => d / complement
  | .arccos => -(d / complement)

/-- The derivative of an operation on operands of values `a` and `b` whose derivatives are `da` and
`db`. -/
def BinaryOp.tangent [Scalar α] (op : BinaryOp) (a b da db : α) : α :=
  match op with
  | .add => da + db
  | .sub => da - db
  | .mul => da * b + a * db
  | .div => (da * b - a * db) / (b * b)

/-- The derivative of an operation of one operand has the value of the tangent. -/
theorem UnaryOp.eval_chain [Scalar α] (op : UnaryOp) (e d : Expr α) (source : Lookup α) :
    (op.chain e d).eval source = op.tangent (e.eval source) (d.eval source) := by
  cases op <;> rfl

/-- The derivative of an operation of two operands has the value of the tangent. -/
theorem BinaryOp.eval_chain [Scalar α] (op : BinaryOp) (l r dl dr : Expr α) (source : Lookup α) :
    (op.chain l r dl dr).eval source =
      op.tangent (l.eval source) (r.eval source) (dl.eval source) (dr.eval source) := by
  cases op <;> rfl

/-! ## Operands that move -/

section
open Scalar (HasValue)
open LawfulScalar (of_neg of_add of_sub of_mul of_div)

variable [Scalar α] [LawfulScalar α] {a b da db : α}

/-- The derivative of an operation has a value only if that of the operand has one. -/
theorem UnaryOp.hasValue_of_tangent {op : UnaryOp} (hvalue : HasValue (op.tangent a da)) :
    HasValue da := by
  cases op with
  | neg => exact of_neg hvalue
  | square | sin => exact (of_mul hvalue).2
  | cos => exact (of_mul (of_neg hvalue)).2
  | sqrt | arcsin => exact (of_div hvalue).1
  | arccos => exact (of_div (of_neg hvalue)).1

/-- An operation on an operand that does not move does not move. -/
theorem UnaryOp.tangent_zero {op : UnaryOp} (hvalue : HasValue (op.tangent a 0)) :
    op.tangent a 0 = 0 := by
  cases op with
  | neg => exact LawfulScalar.neg_zero
  | square | sin => exact LawfulScalar.mul_zero hvalue
  | cos =>
    have hmul := LawfulScalar.mul_zero (of_neg hvalue)
    simp only [tangent, hmul, LawfulScalar.neg_zero]
  | sqrt | arcsin => exact LawfulScalar.zero_div hvalue
  | arccos =>
    have hdiv := LawfulScalar.zero_div (of_neg hvalue)
    simp only [tangent, hdiv, LawfulScalar.neg_zero]

/-- The derivative of an operation has a value only if those of the operands have one. -/
theorem BinaryOp.hasValue_of_tangent {op : BinaryOp} (hvalue : HasValue (op.tangent a b da db)) :
    HasValue da ∧ HasValue db := by
  cases op with
  | add => exact of_add hvalue
  | sub => exact of_sub hvalue
  | mul => exact ⟨(of_mul (of_add hvalue).1).1, (of_mul (of_add hvalue).2).2⟩
  | div =>
    have hsub := of_sub (of_div hvalue).1
    exact ⟨(of_mul hsub.1).1, (of_mul hsub.2).2⟩

/-- An operation on operands that do not move does not move. -/
theorem BinaryOp.tangent_zero {op : BinaryOp} (hvalue : HasValue (op.tangent a b 0 0)) :
    op.tangent a b 0 0 = 0 := by
  cases op with
  | add => exact LawfulScalar.zero_add _
  | sub => exact LawfulScalar.sub_zero _
  | mul =>
    have hadd := of_add hvalue
    simp only [tangent, LawfulScalar.zero_mul hadd.1, LawfulScalar.mul_zero hadd.2,
      LawfulScalar.zero_add]
  | div =>
    have hsub := of_sub (of_div hvalue).1
    have hzero : 0 * b - a * 0 = 0 := by
      rw [LawfulScalar.zero_mul hsub.1, LawfulScalar.mul_zero hsub.2, LawfulScalar.sub_zero]
    simp only [tangent, hzero] at hvalue ⊢
    exact LawfulScalar.zero_div hvalue

end

/-! ## Linearity -/

section
variable [Field K] [LinearOrder K] [PartialFunctions K] {a b da db : Exact K} {x y z : K}

/-- Over exact numbers, what has a value is a number. -/
theorem UnaryOp.tangent_eq_number {op : UnaryOp} (h : op.tangent a da = .number x) :
    ∃ y, da = .number y :=
  Exact.hasValue_iff.1 (UnaryOp.hasValue_of_tangent (Exact.hasValue_iff.2 ⟨x, h⟩))

/-- The derivative of an operation is linear in that of the operand. -/
theorem UnaryOp.exists_tangent {op : UnaryOp} (h : op.tangent a (.number y) = .number x) :
    ∃ c, ∀ z, op.tangent a (.number z) = .number (c * z) := by
  cases op with
  | neg => exact ⟨-1, fun z => by rw [neg_one_mul]; rfl⟩
  | square | sin =>
    obtain ⟨c, _, hc, _, _⟩ := Exact.mul_eq_number.1 h
    exact ⟨c, fun z => by simp only [UnaryOp.tangent, hc, Exact.number_mul]⟩
  | cos =>
    obtain ⟨_, hx, _⟩ := Exact.neg_eq_number.1 h
    obtain ⟨c, _, hc, _, _⟩ := Exact.mul_eq_number.1 hx
    exact ⟨-c, fun z => by
      simp only [UnaryOp.tangent, hc, Exact.number_mul, Exact.neg_number, neg_mul]⟩
  | sqrt | arcsin =>
    obtain ⟨_, w, _, hw, hne, _⟩ := Exact.div_eq_number.1 h
    refine ⟨w⁻¹, fun z => Exact.div_eq_number.2 ⟨z, w, rfl, hw, hne, ?_⟩⟩
    rw [div_eq_inv_mul]
  | arccos =>
    obtain ⟨_, hx, _⟩ := Exact.neg_eq_number.1 h
    obtain ⟨_, w, _, hw, hne, _⟩ := Exact.div_eq_number.1 hx
    refine ⟨-w⁻¹, fun z => Exact.neg_eq_number.2
      ⟨z / w, Exact.div_eq_number.2 ⟨z, w, rfl, hw, hne, rfl⟩, ?_⟩⟩
    rw [div_eq_inv_mul, neg_mul]

/-- The derivative of an operation of two operands is a number only if those of the operands are. -/
theorem BinaryOp.tangent_eq_number {op : BinaryOp} (h : op.tangent a b da db = .number x) :
    (∃ y, da = .number y) ∧ ∃ z, db = .number z := by
  obtain ⟨hda, hdb⟩ := BinaryOp.hasValue_of_tangent (Exact.hasValue_iff.2 ⟨x, h⟩)
  exact ⟨Exact.hasValue_iff.1 hda, Exact.hasValue_iff.1 hdb⟩

/-- The derivative of an operation is linear in those of the operands. -/
theorem BinaryOp.exists_tangent {op : BinaryOp}
    (h : op.tangent a b (.number y) (.number z) = .number x) :
    ∃ c c', ∀ y z, op.tangent a b (.number y) (.number z) = .number (c * y + c' * z) := by
  cases op with
  | add => exact ⟨1, 1, fun y z => by rw [one_mul, one_mul]; rfl⟩
  | sub => exact ⟨1, -1, fun y z => by rw [one_mul, neg_one_mul, ← sub_eq_add_neg]; rfl⟩
  | mul =>
    obtain ⟨_, _, hl, hr, _⟩ := Exact.add_eq_number.1 h
    obtain ⟨_, c, _, hb, _⟩ := Exact.mul_eq_number.1 hl
    obtain ⟨c', _, ha, _, _⟩ := Exact.mul_eq_number.1 hr
    refine ⟨c, c', fun y z => ?_⟩
    rw [mul_comm c]
    simp only [BinaryOp.tangent, ha, hb, Exact.number_mul, Exact.number_add]
  | div =>
    obtain ⟨_, w, hd, hw, hne, _⟩ := Exact.div_eq_number.1 h
    obtain ⟨_, _, hl, hr, _⟩ := Exact.sub_eq_number.1 hd
    obtain ⟨_, c, _, hb, _⟩ := Exact.mul_eq_number.1 hl
    obtain ⟨c', _, ha, _, _⟩ := Exact.mul_eq_number.1 hr
    refine ⟨c / w, -(c' / w), fun y z => Exact.div_eq_number.2 ⟨y * c - c' * z, w, ?_, hw, hne, ?_⟩⟩
    · rw [ha, hb, Exact.number_mul, Exact.number_mul, Exact.number_sub]
    · ring

end

/-! ## Merged parameters -/

namespace Expr

/-- What does not refer to a parameter has the derivative zero. -/
theorem partialWrt_eq_zero [Scalar α] {h : ParamHandle} {e : Expr α}
    (he : e.dependsOn h = false) : e.partialWrt h = .const 0 := by
  cases e with
  | param p | slot p _ =>
    have hne : p ≠ h := by simpa [dependsOn] using he
    rw [partialWrt, if_neg hne]
  | const _ => rfl
  | unary _ e =>
    replace he : e.dependsOn h = false := he
    rw [partialWrt, if_neg (by simp [he])]
  | binary _ l r =>
    rw [partialWrt, if_neg (by simpa [dependsOn] using he)]

/-- Different names make no difference to a derivative. -/
theorem partialWrt_rename [Scalar α] {f : ParamHandle → ParamHandle} (hf : Function.Injective f)
    {h : ParamHandle} (e : Expr α) : (e.rename f).partialWrt (f h) = (e.partialWrt h).rename f := by
  have hdep : ∀ e : Expr α, (e.rename f).dependsOn (f h) = e.dependsOn h := by
    intro e
    rw [Bool.eq_iff_iff, dependsOn_rename]
    constructor
    · rintro ⟨x, hx, hfx⟩
      rwa [← hf hfx]
    · exact fun he => ⟨h, he, rfl⟩
  induction e with
  | param p | slot p _ =>
    change Expr.const (if f p = f h then 1 else 0) = .const (if p = h then 1 else 0)
    simp only [hf.eq_iff]
  | const _ => rfl
  | unary op e ih =>
    rw [show (Expr.unary op e).rename f = .unary op (e.rename f) from rfl, partialWrt, partialWrt,
      hdep, ih]
    split
    · cases op <;> rfl
    · rfl
  | binary op l r ihl ihr =>
    rw [show (Expr.binary op l r).rename f = .binary op (l.rename f) (r.rename f) from rfl,
      partialWrt, partialWrt, hdep, hdep, ihl, ihr]
    split
    · cases op <;> rfl
    · rfl

section
variable [Field K] [LinearOrder K] [PartialFunctions K] {source : Lookup (Exact K)}
  {v : ParamHandle → Exact K} {g : ParamHandle → Expr (Exact K)} {ρ : ParamHandle → ParamHandle}
  {y : ParamHandle} {merged : Finset ParamHandle}

/-- A parameter in place of another one depends on itself only. -/
theorem dependsOn_of_handle? {e : Expr α} {p : ParamHandle} (he : e.handle? = some p)
    (h : ParamHandle) : e.dependsOn h = (p == h) := by
  cases e <;> cases he <;> rfl

/-- What has been put in place of a parameter of an expression occurs in it afterwards. -/
theorem dependsOn_bindParams_of_handle? {g : ParamHandle → Expr α} {e : Expr α}
    {p q : ParamHandle} (hq : (g p).handle? = some q) (he : e.dependsOn p = true) :
    (e.bindParams g).dependsOn q = true := by
  rw [dependsOn_bindParams]
  exact ⟨p, he, by rw [dependsOn_of_handle? hq, beq_iff_eq]⟩

/-- An expression none of whose parameters has been replaced by `y` has a constant derivative. -/
theorem eval_partialWrt_of_forall {e : Expr (Exact K)} {m : ParamHandle → K}
    (hg : ∀ x, (g x).handle? = some (ρ x))
    (hmerged : ∀ x, e.dependsOn x = true → (x ∈ merged ↔ ρ x = y))
    (hm : ∀ x ∈ merged, (e.partialWrt x).eval (.byHandle v) = .number (m x))
    (hnone : ∀ x ∈ merged, e.dependsOn x = false) :
    ((e.bindParams g).partialWrt y).eval source = .number (∑ x ∈ merged, m x) := by
  have hy : (e.bindParams g).dependsOn y = false := by
    by_contra hdep
    rw [Bool.not_eq_false, dependsOn_bindParams] at hdep
    obtain ⟨x, hx, hgx⟩ := hdep
    rw [dependsOn_of_handle? (hg x), beq_iff_eq] at hgx
    rw [hnone x ((hmerged x hx).2 hgx)] at hx
    cases hx
  have hzero : ∀ x ∈ merged, m x = 0 := by
    intro x hx
    have hmx := hm x hx
    rw [partialWrt_eq_zero (hnone x hx)] at hmx
    exact (Exact.number.inj hmx).symm
  rw [partialWrt_eq_zero hy, Finset.sum_eq_zero hzero]
  rfl

/-- A derivative of an operation comes from one of the operand, in the way that the operation maps
all of them. -/
theorem exists_of_partialWrt_unary {op : UnaryOp} {e : Expr (Exact K)} {x : ParamHandle} {c d : K}
    (hc : ∀ z, op.tangent (e.eval source) (.number z) = .number (c * z))
    (hd : ((Expr.unary op e).partialWrt x).eval source = .number d) :
    ∃ z, (e.partialWrt x).eval source = .number z ∧ d = c * z := by
  rw [partialWrt] at hd
  cases hdep : e.dependsOn x with
  | true =>
    rw [if_pos hdep, UnaryOp.eval_chain] at hd
    obtain ⟨z, hz⟩ := UnaryOp.tangent_eq_number hd
    rw [hz, hc] at hd
    exact ⟨z, hz, (Exact.number.inj hd).symm⟩
  | false =>
    rw [if_neg (by simp [hdep])] at hd
    refine ⟨0, ?_, ?_⟩
    · rw [partialWrt_eq_zero hdep]
      rfl
    · rw [mul_zero]
      exact (Exact.number.inj hd).symm

/-- A derivative of an operation comes from those of the operands, in the way that the operation
maps all of them. -/
theorem exists_of_partialWrt_binary {op : BinaryOp} {l r : Expr (Exact K)} {x : ParamHandle}
    {c c' d : K} (hc : ∀ z z', op.tangent (l.eval source) (r.eval source) (.number z) (.number z') =
      .number (c * z + c' * z'))
    (hd : ((Expr.binary op l r).partialWrt x).eval source = .number d) :
    ∃ z z', (l.partialWrt x).eval source = .number z ∧
      (r.partialWrt x).eval source = .number z' ∧ d = c * z + c' * z' := by
  rw [partialWrt] at hd
  cases hdep : (l.dependsOn x || r.dependsOn x) with
  | true =>
    rw [if_pos hdep, BinaryOp.eval_chain] at hd
    obtain ⟨⟨z, hz⟩, z', hz'⟩ := BinaryOp.tangent_eq_number hd
    rw [hz, hz', hc] at hd
    exact ⟨z, z', hz, hz', (Exact.number.inj hd).symm⟩
  | false =>
    obtain ⟨hl, hr⟩ := Bool.or_eq_false_iff.1 hdep
    rw [if_neg (by simp [hdep])] at hd
    refine ⟨0, 0, ?_, ?_, ?_⟩
    · rw [partialWrt_eq_zero hl]
      rfl
    · rw [partialWrt_eq_zero hr]
      rfl
    · rw [mul_zero, mul_zero, add_zero]
      exact (Exact.number.inj hd).symm

/-- An expression in which the parameters of a finite set, and no others that it refers to, have
been replaced by `y` has the sum of their derivatives as its derivative with respect to `y`. -/
theorem eval_partialWrt_bindParams (hg : ∀ x, (g x).handle? = some (ρ x)) :
    ∀ {e : Expr (Exact K)} {m : ParamHandle → K},
      (∀ x, e.dependsOn x = true → (x ∈ merged ↔ ρ x = y)) →
      (∀ x, e.dependsOn x = true → (g x).eval source = v x) →
      (∀ x ∈ merged, (e.partialWrt x).eval (.byHandle v) = .number (m x)) →
      ((e.bindParams g).partialWrt y).eval source = .number (∑ x ∈ merged, m x) := by
  intro e
  induction e with
  | param p | slot p _ =>
    intro m hmerged _ hm
    have hone : ∀ x ∈ merged, m x = if p = x then 1 else 0 := by
      intro x hx
      have hmx := hm x hx
      rw [partialWrt] at hmx
      by_cases hpx : p = x
      · rw [if_pos hpx] at hmx ⊢
        exact (Exact.number.inj hmx).symm
      · rw [if_neg hpx] at hmx ⊢
        exact (Exact.number.inj hmx).symm
    have hp := hmerged p (by simp [dependsOn])
    rw [Finset.sum_congr rfl hone, Finset.sum_ite_eq, bindParams]
    have hpartial : (g p).partialWrt y = .const (if ρ p = y then 1 else 0) := by
      have hgp := hg p
      generalize g p = e at hgp
      cases e <;> cases hgp <;> rfl
    rw [hpartial]
    by_cases hpy : ρ p = y
    · rw [if_pos hpy, if_pos (hp.2 hpy)]
      rfl
    · rw [if_neg hpy, if_neg fun hin => hpy (hp.1 hin)]
      rfl
  | const _ =>
    intro m hmerged _ hm
    exact eval_partialWrt_of_forall hg hmerged hm fun _ _ => rfl
  | unary op e ih =>
    intro m hmerged hv hm
    replace hmerged : ∀ x, e.dependsOn x = true → (x ∈ merged ↔ ρ x = y) := hmerged
    replace hv : ∀ x, e.dependsOn x = true → (g x).eval source = v x := hv
    by_cases hnone : ∀ x ∈ merged, e.dependsOn x = false
    · exact eval_partialWrt_of_forall hg hmerged hm hnone
    simp only [not_forall, Bool.not_eq_false] at hnone
    obtain ⟨x₀, hx₀, hdep₀⟩ := hnone
    -- One derivative that has a value says how the operation maps all of them.
    have hm₀ := hm x₀ hx₀
    rw [partialWrt, if_pos hdep₀, UnaryOp.eval_chain] at hm₀
    obtain ⟨y₀, hy₀⟩ := UnaryOp.tangent_eq_number hm₀
    rw [hy₀] at hm₀
    obtain ⟨c, hc⟩ := UnaryOp.exists_tangent hm₀
    have heach : ∀ x ∈ merged, ∃ z, (e.partialWrt x).eval (.byHandle v) = .number z ∧
        m x = c * z := fun x hx => exists_of_partialWrt_unary hc (hm x hx)
    choose! z hz using heach
    have hsum := ih hmerged hv fun x hx => (hz x hx).1
    have hdepy := dependsOn_bindParams_of_handle? (hg x₀) hdep₀
    rw [(hmerged x₀ hdep₀).1 hx₀] at hdepy
    rw [bindParams, partialWrt, if_pos hdepy, UnaryOp.eval_chain, hsum, eval_bindParams,
      eval_byHandle_congr hv, hc, Finset.mul_sum]
    exact congrArg Exact.number (Finset.sum_congr rfl fun x hx => (hz x hx).2.symm)
  | binary op l r ihl ihr =>
    intro m hmerged hv hm
    have hdependsOn : ∀ x, (Expr.binary op l r).dependsOn x = (l.dependsOn x || r.dependsOn x) :=
      fun _ => rfl
    simp only [hdependsOn] at hmerged hv
    by_cases hnone : ∀ x ∈ merged, (l.dependsOn x || r.dependsOn x) = false
    · exact eval_partialWrt_of_forall hg hmerged hm hnone
    simp only [not_forall, Bool.not_eq_false] at hnone
    obtain ⟨x₀, hx₀, hdep₀⟩ := hnone
    have hm₀ := hm x₀ hx₀
    rw [partialWrt, if_pos hdep₀, BinaryOp.eval_chain] at hm₀
    obtain ⟨⟨y₀, hy₀⟩, z₀, hz₀⟩ := BinaryOp.tangent_eq_number hm₀
    rw [hy₀, hz₀] at hm₀
    obtain ⟨c, c', hc⟩ := BinaryOp.exists_tangent hm₀
    have heach : ∀ x ∈ merged, ∃ z z', (l.partialWrt x).eval (.byHandle v) = .number z ∧
        (r.partialWrt x).eval (.byHandle v) = .number z' ∧ m x = c * z + c' * z' :=
      fun x hx => exists_of_partialWrt_binary hc (hm x hx)
    choose! z z' hz using heach
    have hleft : ∀ x, l.dependsOn x = true → (l.dependsOn x || r.dependsOn x) = true :=
      fun x hx => by simp [hx]
    have hright : ∀ x, r.dependsOn x = true → (l.dependsOn x || r.dependsOn x) = true :=
      fun x hx => by simp [hx]
    have hsuml := ihl (fun x hx => hmerged x (hleft x hx)) (fun x hx => hv x (hleft x hx))
      fun x hx => (hz x hx).1
    have hsumr := ihr (fun x hx => hmerged x (hright x hx)) (fun x hx => hv x (hright x hx))
      fun x hx => (hz x hx).2.1
    have hdepy := dependsOn_bindParams_of_handle? (e := .binary op l r) (hg x₀) hdep₀
    rw [(hmerged x₀ hdep₀).1 hx₀, bindParams, dependsOn] at hdepy
    rw [bindParams, partialWrt, if_pos hdepy, BinaryOp.eval_chain, hsuml, hsumr, eval_bindParams,
      eval_bindParams, eval_byHandle_congr fun x hx => hv x (hleft x hx),
      eval_byHandle_congr fun x hx => hv x (hright x hx), hc, Finset.mul_sum, Finset.mul_sum,
      ← Finset.sum_add_distrib]
    exact congrArg Exact.number (Finset.sum_congr rfl fun x hx => (hz x hx).2.2.symm)

/-- Renaming merges the derivatives with respect to the parameters that get one name. -/
theorem RenamedBy.eval_partialWrt {f : ParamHandle → ParamHandle} {e e' : Expr (Exact K)}
    {w : ParamHandle → Exact K} {m : ParamHandle → K} (he : e.RenamedBy f e')
    (hmerged : ∀ x, e.dependsOn x = true → (x ∈ merged ↔ f x = y))
    (hw : ∀ x, e.dependsOn x = true → w (f x) = v x)
    (hm : ∀ x ∈ merged, (e.partialWrt x).eval (.byHandle v) = .number (m x)) :
    (e'.partialWrt y).eval (.byHandle w) = .number (∑ x ∈ merged, m x) := by
  have hsum : ((e.rename f).partialWrt y).eval (.byHandle w) = .number (∑ x ∈ merged, m x) :=
    eval_partialWrt_bindParams (fun _ => rfl) hmerged hw hm
  rcases he with rfl | ⟨rfl, rfl⟩
  · exact hsum
  · rw [← hsum, show y = id y from rfl, partialWrt_rename Function.injective_id, eval_rename]
    rfl

/-- The derivative of a difference of two parameters. -/
theorem eval_partialWrt_sub_param {a b : ParamHandle} :
    ((Expr.binary .sub (.param a) (.param b) : Expr (Exact K)).partialWrt y).eval source =
      .number ((if a = y then 1 else 0) - if b = y then 1 else 0) := by
  rw [partialWrt]
  split
  · rw [BinaryOp.eval_chain, partialWrt, partialWrt]
    by_cases ha : a = y <;> by_cases hb : b = y <;> simp only [ha, hb, if_true, if_false] <;> rfl
  · next hdep =>
    have hne : a ≠ y ∧ b ≠ y := by simpa [dependsOn] using hdep
    rw [if_neg hne.1, if_neg hne.2, sub_zero]
    rfl

end

end Expr

end SketchSolver
