import SketchSolver.Proofs.Arithmetic.Exact
import SketchSolver.Proofs.Expr.Isolation

/-!
# Expressions over exact numbers

An operation has a value only on operands that have one (`UnaryOp.apply_eq_number`,
`BinaryOp.apply_eq_number`).

Isolation undoes the operations on the way down to a parameter, one after the other. A sum, a
difference or a product that has been undone gives back the value it was said to have
(`BinaryOp.eval_undoLeft`, `BinaryOp.eval_undoRight`), and for a square either root does. A square
root gives it back only if it is not negative, and isolation squares it without asking. So an
equation that is solved in closed form is `reversible` or has not been solved at all
(`Expr.eval_eq_iff_reversible`).
-/

namespace SketchSolver

/-- The value `a`, which `h` has got from undoing the operations of `lhs = rhs` at the values `w`,
makes the two sides equal: no square root on the way down should have had a negative value, unless
a square above it has the same value at the other root. -/
def Expr.reversible [Scalar α] (w : ParamHandle → α) (h : ParamHandle) (a : α) :
    (lhs rhs : Expr α) → Bool
  | .unary .sqrt e, rhs =>
    decide (0 ≤ rhs.eval (.byHandle w)) && e.reversible w h a rhs.square
  | .unary .square e, rhs =>
    let root := nearerRoot (.byHandle w) e rhs
    e.reversible w h a root ||
      e.eval (.byHandle (Function.update w h a)) == (-root).eval (.byHandle w)
  | .binary op l r, rhs =>
    if l.dependsOn h then l.reversible w h a (op.undoLeft rhs r)
    else r.reversible w h a (op.undoRight rhs l)
  | _, _ => true

variable [Field K] [LinearOrder K] [PartialFunctions K] {source : Lookup (Exact K)} {x y : K}

/-! ## Operands -/

/-- An operation has a value only on an operand that has one. -/
theorem UnaryOp.apply_eq_number {op : UnaryOp} {a : Exact K} (ha : op.apply a = .number x) :
    ∃ y, a = .number y := by
  cases a with
  | number y => exact ⟨y, rfl⟩
  | undefined => cases op <;> cases ha

/-- An operation has a value only on operands that have one. -/
theorem BinaryOp.apply_eq_number {op : BinaryOp} {a b : Exact K}
    (hab : op.apply a b = .number x) : (∃ y, a = .number y) ∧ ∃ z, b = .number z := by
  cases op with
  | add =>
    obtain ⟨y, z, ha, hb, _⟩ := Exact.add_eq_number.1 hab
    exact ⟨⟨y, ha⟩, z, hb⟩
  | sub =>
    obtain ⟨y, z, ha, hb, _⟩ := Exact.sub_eq_number.1 hab
    exact ⟨⟨y, ha⟩, z, hb⟩
  | mul =>
    obtain ⟨y, z, ha, hb, _⟩ := Exact.mul_eq_number.1 hab
    exact ⟨⟨y, ha⟩, z, hb⟩
  | div =>
    obtain ⟨y, z, ha, hb, _⟩ := Exact.div_eq_number.1 hab
    exact ⟨⟨y, ha⟩, z, hb⟩

/-! ## Undone -/

section
variable {h : ParamHandle} {w : ParamHandle → Exact K}

/-- With the value it was undone to, and with no other, a left operand gives the whole its value. -/
theorem BinaryOp.eval_undoLeft {op : BinaryOp} {rhs r : Expr (Exact K)} (hop : op ≠ .div)
    (hx : (op.undoLeft rhs r).eval source = .number x) :
    ∃ y z, rhs.eval source = .number y ∧ r.eval source = .number z ∧
      ∀ a : Exact K, op.apply a (.number z) = .number y ↔ a = .number x := by
  cases op with
  | add =>
    obtain ⟨y, z, hy, hz, hxyz⟩ := Exact.sub_eq_number.1 hx
    refine ⟨y, z, hy, hz, fun a => ?_⟩
    simp only [BinaryOp.apply, Exact.add_eq_number, Exact.number.injEq]
    constructor
    · rintro ⟨b, _, rfl, rfl, hb⟩
      rw [← hxyz, ← hb, add_sub_cancel_right]
    · rintro rfl
      exact ⟨x, z, rfl, rfl, by rw [← hxyz, sub_add_cancel]⟩
  | sub =>
    obtain ⟨y, z, hy, hz, hxyz⟩ := Exact.add_eq_number.1 hx
    refine ⟨y, z, hy, hz, fun a => ?_⟩
    simp only [BinaryOp.apply, Exact.sub_eq_number, Exact.number.injEq]
    constructor
    · rintro ⟨b, _, rfl, rfl, hb⟩
      rw [← hxyz, ← hb, sub_add_cancel]
    · rintro rfl
      exact ⟨x, z, rfl, rfl, by rw [← hxyz, add_sub_cancel_right]⟩
  | mul =>
    obtain ⟨y, z, hy, hz, hne, hxyz⟩ := Exact.div_eq_number.1 hx
    refine ⟨y, z, hy, hz, fun a => ?_⟩
    simp only [BinaryOp.apply, Exact.mul_eq_number, Exact.number.injEq]
    constructor
    · rintro ⟨b, _, rfl, rfl, hb⟩
      rw [← hxyz, ← hb, mul_div_cancel_right₀ b hne]
    · rintro rfl
      exact ⟨x, z, rfl, rfl, by rw [← hxyz, div_mul_cancel₀ y hne]⟩
  | div => exact absurd rfl hop

/-- With the value it was undone to, and with no other, a right operand gives the whole its
value. -/
theorem BinaryOp.eval_undoRight {op : BinaryOp} {rhs l : Expr (Exact K)} (hop : op ≠ .div)
    (hx : (op.undoRight rhs l).eval source = .number x) :
    ∃ y z, rhs.eval source = .number y ∧ l.eval source = .number z ∧
      ∀ a : Exact K, op.apply (.number z) a = .number y ↔ a = .number x := by
  cases op with
  | add =>
    obtain ⟨y, z, hy, hz, hxyz⟩ := Exact.sub_eq_number.1 hx
    refine ⟨y, z, hy, hz, fun a => ?_⟩
    simp only [BinaryOp.apply, Exact.add_eq_number, Exact.number.injEq]
    constructor
    · rintro ⟨_, b, rfl, rfl, hb⟩
      rw [← hxyz, ← hb, add_sub_cancel_left]
    · rintro rfl
      exact ⟨z, x, rfl, rfl, by rw [← hxyz, add_sub_cancel]⟩
  | sub =>
    obtain ⟨d, hd, hdx⟩ := Exact.neg_eq_number.1 hx
    obtain ⟨y, z, hy, hz, hxyz⟩ := Exact.sub_eq_number.1 hd
    refine ⟨y, z, hy, hz, fun a => ?_⟩
    simp only [BinaryOp.apply, Exact.sub_eq_number, Exact.number.injEq]
    constructor
    · rintro ⟨_, b, rfl, rfl, hb⟩
      rw [← hdx, ← hxyz, ← hb, neg_sub, sub_sub_cancel]
    · rintro rfl
      exact ⟨z, x, rfl, rfl, by rw [← hdx, ← hxyz, neg_sub, sub_sub_cancel]⟩
  | mul =>
    obtain ⟨y, z, hy, hz, hne, hxyz⟩ := Exact.div_eq_number.1 hx
    refine ⟨y, z, hy, hz, fun a => ?_⟩
    simp only [BinaryOp.apply, Exact.mul_eq_number, Exact.number.injEq]
    constructor
    · rintro ⟨_, b, rfl, rfl, hb⟩
      rw [← hxyz, ← hb, mul_div_cancel_left₀ b hne]
    · rintro rfl
      exact ⟨z, x, rfl, rfl, by rw [← hxyz, mul_div_cancel₀ y hne]⟩
  | div => exact absurd rfl hop

variable [LawfulRoot K]

/-- The square of the root that has been chosen is what the square was said to be. -/
theorem eval_nearerRoot {e rhs : Expr (Exact K)}
    (hx : (Expr.nearerRoot source e rhs).eval source = .number x) :
    rhs.eval source = .number (x * x) := by
  have hroot : rhs.sqrt.eval source = .number x ∨ rhs.sqrt.eval source = .number (-x) := by
    simp only [Expr.nearerRoot] at hx
    split at hx
    · obtain ⟨y, hy, hyx⟩ := Exact.neg_eq_number.1 hx
      exact Or.inr (by rw [hy, ← hyx, neg_neg])
    · exact Or.inl hx
  rcases hroot with hroot | hroot <;> obtain ⟨y, hy, _, hyx⟩ := Exact.sqrt_eq_number.1 hroot
  · rw [hy, hyx]
  · rw [hy, ← hyx, neg_mul_neg]

/-- What is found for a parameter has a value only if the right side has one. -/
theorem Expr.isNumber_of_isolateFrom {found : Expr (Exact K)} (hx : found.eval source = .number x) :
    ∀ lhs rhs : Expr (Exact K), lhs.isolateFrom source h rhs = .ok found →
      ∃ y, rhs.eval source = .number y := by
  refine induction_isolateFrom ?reference ?sqrt ?square ?left ?right
  case reference => exact fun _ _ => ⟨x, hx⟩
  case sqrt =>
    rintro _ rhs ⟨_, hy⟩
    obtain ⟨y, _, hy, _⟩ := Exact.mul_eq_number.1 hy
    exact ⟨y, hy⟩
  case square =>
    rintro _ rhs ⟨_, hy⟩
    exact ⟨_, eval_nearerRoot hy⟩
  case left =>
    rintro op l r rhs hop _ ⟨_, hy⟩
    obtain ⟨y, _, hy, _⟩ := BinaryOp.eval_undoLeft hop hy
    exact ⟨y, hy⟩
  case right =>
    rintro op l r rhs hop _ _ ⟨_, hy⟩
    obtain ⟨y, _, hy, _⟩ := BinaryOp.eval_undoRight hop hy
    exact ⟨y, hy⟩

/-- An equation that has been solved for a parameter holds at the value of the parameter exactly if
what was undone can be done again. -/
theorem Expr.eval_eq_iff_reversible {lhs : Expr (Exact K)} (hcan : lhs.canIsolate h = true) :
    ∀ {rhs found : Expr (Exact K)}, lhs.isolateFrom (.byHandle w) h rhs = .ok found →
      found.eval (.byHandle w) = .number x →
      ∃ y, rhs.eval (.byHandle w) = .number y ∧
        (lhs.eval (.byHandle (Function.update w h (.number x))) = .number y ↔
          lhs.reversible w h (.number x) rhs = true) := by
  have hother : ∀ {e : Expr (Exact K)}, e.dependsOn h = false →
      e.eval (.byHandle (Function.update w h (.number x))) = e.eval (.byHandle w) := by
    intro e he
    refine Expr.eval_byHandle_congr fun k hk => Function.update_of_ne ?_ _ _
    rintro rfl
    rw [he] at hk
    cases hk
  induction lhs, hcan using Expr.induction_canIsolate with
  | param _ | slot _ _ =>
    intro rhs found hfound hx
    rw [isolateFrom, if_pos rfl] at hfound
    cases hfound
    refine ⟨x, hx, ?_⟩
    simp [eval, Lookup.byHandle, reversible]
  | sqrt e _ _ ih =>
    intro rhs found hfound hx
    obtain ⟨s, hs, hiff⟩ := @ih rhs.square found hfound hx
    obtain ⟨y, _, hy, hy', hyy⟩ := Exact.mul_eq_number.1 hs
    obtain rfl := Exact.number.inj (hy.symm.trans hy')
    refine ⟨y, hy, ?_⟩
    rw [reversible, Bool.and_eq_true, decide_eq_true_eq, hy, ← hiff, ← hyy]
    refine Exact.sqrt_eq_number.trans ⟨?_, ?_⟩
    · rintro ⟨_, he, h0, rfl⟩
      exact ⟨h0, he⟩
    · rintro ⟨h0, he⟩
      exact ⟨y * y, he, h0, rfl⟩
  | square e _ _ ih =>
    intro rhs found hfound hx
    obtain ⟨t, ht, hiff⟩ := @ih (nearerRoot (.byHandle w) e rhs) found hfound hx
    have hneg : (-nearerRoot (.byHandle w) e rhs).eval (.byHandle w) = .number (-t) := by
      change -(nearerRoot (.byHandle w) e rhs).eval (.byHandle w) = _
      rw [ht, Exact.neg_number]
    refine ⟨t * t, eval_nearerRoot ht, ?_⟩
    rw [reversible, Bool.or_eq_true, ← hiff, hneg, Exact.beq_number]
    refine Exact.mul_eq_number.trans ⟨?_, ?_⟩
    · rintro ⟨a, b, ha, hb, hab⟩
      obtain rfl := Exact.number.inj (ha.symm.trans hb)
      rcases mul_self_eq_mul_self_iff.1 hab with rfl | rfl
      · exact Or.inl ha
      · exact Or.inr ha
    · rintro (he | he)
      · exact ⟨t, t, he, he, rfl⟩
      · exact ⟨-t, -t, he, he, neg_mul_neg t t⟩
  | left op l r _ _ hop hl hr ih =>
    intro rhs found hfound hx
    rw [isolateFrom_left hop hl] at hfound
    obtain ⟨s, hs, hiff⟩ := ih hfound hx
    obtain ⟨y, z, hy, hz, hback⟩ := BinaryOp.eval_undoLeft hop hs
    refine ⟨y, hy, ?_⟩
    rw [reversible, if_pos hl, ← hiff, eval, hother hr, hz, hback]
  | right op l r _ _ hop hl hr ih =>
    intro rhs found hfound hx
    rw [isolateFrom_right hop hl hr] at hfound
    obtain ⟨s, hs, hiff⟩ := ih hfound hx
    obtain ⟨y, z, hy, hz, hback⟩ := BinaryOp.eval_undoRight hop hs
    refine ⟨y, hy, ?_⟩
    rw [reversible, if_neg (by simp [hl]), ← hiff, eval, hother hl, hz, hback]

end

end SketchSolver
