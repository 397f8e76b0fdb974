import Mathlib.Logic.Function.Basic
import SketchSolver.Expr.Isolation
import SketchSolver.Proofs.Expr.Parameters

/-!
# The way down to a parameter

An equation can be solved for a parameter if the way down to it passes squares, square roots, and
operations with the parameter in one operand each. Everything about such equations is proved by
induction on that way (`Expr.induction_canIsolate`), on which isolation undoes one operation after
the other (`Expr.isolateFrom_left`, `Expr.isolateFrom_right`).

So isolation does not fail, and what the parameter equals depends on the values of the other
parameters and, where a root is chosen, on its own present value (`Expr.isolateFrom_congr`). The
parameter itself is not referred to any more (`Expr.dependsOn_isolateFrom`), and isolation of any
other equation fails or leaves a reference to it (`Expr.canIsolate_iff_isolate`). Writing parameters
by position makes no difference (`Expr.isolateFrom_toSlots`).
-/

namespace SketchSolver

/-- What the left operand of `l op r` equals when the whole equals `rhs`. -/
def BinaryOp.undoLeft : BinaryOp → (rhs r : Expr α) → Expr α
  | .add, rhs, r => rhs - r
  | .sub, rhs, r => rhs + r
  | .mul, rhs, r => rhs / r
  | .div, rhs, _ => rhs

/-- What the right operand of `l op r` equals when the whole equals `rhs`. -/
def BinaryOp.undoRight : BinaryOp → (rhs l : Expr α) → Expr α
  | .add, rhs, l => rhs - l
  | .sub, rhs, l => -(rhs - l)
  | .mul, rhs, l => rhs / l
  | .div, rhs, _ => rhs

namespace Expr

variable {h k : ParamHandle} {position? : ParamHandle → Option Nat}

/-! ## The way down -/

/-- The way down to a parameter goes on with the operand that has it, and the other has not. -/
theorem canIsolate_binary {op : BinaryOp} {l r : Expr α}
    (hcan : (Expr.binary op l r).canIsolate h = true) :
    op ≠ .div ∧ (l.dependsOn h = true ∧ r.dependsOn h = false ∧ l.canIsolate h = true ∨
      l.dependsOn h = false ∧ r.dependsOn h = true ∧ r.canIsolate h = true) := by
  cases op with
  | add | sub | mul =>
    refine ⟨by decide, ?_⟩
    rw [canIsolate] at hcan
    cases hl : l.dependsOn h <;> cases hr : r.dependsOn h <;> simp [hl, hr] at hcan
    · exact Or.inr ⟨rfl, rfl, hcan⟩
    · exact Or.inl ⟨rfl, rfl, hcan⟩
  | div => simp [canIsolate] at hcan

/-- What holds at a parameter, and is handed up from an operand that has it by every operation that
can be undone, holds of every equation that can be solved for the parameter. -/
theorem induction_canIsolate {motive : (e : Expr α) → e.canIsolate h = true → Prop}
    (param : ∀ hcan, motive (.param h) hcan) (slot : ∀ i hcan, motive (.slot h i) hcan)
    (sqrt : ∀ e he hcan, motive e he → motive (.unary .sqrt e) hcan)
    (square : ∀ e he hcan, motive e he → motive (.unary .square e) hcan)
    (left : ∀ op l r hl hcan, op ≠ .div → l.dependsOn h = true → r.dependsOn h = false →
      motive l hl → motive (.binary op l r) hcan)
    (right : ∀ op l r hr hcan, op ≠ .div → l.dependsOn h = false → r.dependsOn h = true →
      motive r hr → motive (.binary op l r) hcan)
    (e : Expr α) (hcan : e.canIsolate h = true) : motive e hcan := by
  induction e with
  | param p =>
    obtain rfl : p = h := by rwa [canIsolate, beq_iff_eq] at hcan
    exact param hcan
  | slot p i =>
    obtain rfl : p = h := by rwa [canIsolate, beq_iff_eq] at hcan
    exact slot i hcan
  | const _ => cases hcan
  | unary op e ih =>
    cases op with
    | sqrt => exact sqrt e hcan hcan (ih hcan)
    | square => exact square e hcan hcan (ih hcan)
    | neg | sin | cos | arcsin | arccos => cases hcan
  | binary op l r ihl ihr =>
    obtain ⟨hop, ⟨hl, hr, hcan'⟩ | ⟨hl, hr, hcan'⟩⟩ := canIsolate_binary hcan
    · exact left op l r hcan' hcan hop hl hr (ihl hcan')
    · exact right op l r hcan' hcan hop hl hr (ihr hcan')

/-- An equation that can be solved for a parameter refers to it. -/
theorem dependsOn_of_canIsolate {e : Expr α} (hcan : e.canIsolate h = true) :
    e.dependsOn h = true := by
  induction e, hcan using induction_canIsolate with
  | param _ => simp [dependsOn]
  | slot _ _ => simp [dependsOn]
  | sqrt _ _ _ ih => exact ih
  | square _ _ _ ih => exact ih
  | left _ _ _ _ _ _ hl _ _ => simp [dependsOn, hl]
  | right _ _ _ _ _ _ _ hr _ => simp [dependsOn, hr]

/-- An equation that can be solved for a parameter refers to it once. -/
theorem countReferences_of_canIsolate {e : Expr α} (hcan : e.canIsolate h = true) :
    e.countReferences h = 1 := by
  induction e, hcan using induction_canIsolate with
  | param _ | slot _ _ => simp [countReferences]
  | sqrt _ _ _ ih | square _ _ _ ih => exact ih
  | left _ _ _ _ _ _ _ hr ih => rw [countReferences, ih, countReferences_eq_zero hr]
  | right _ _ _ _ _ _ hl _ ih => rw [countReferences, ih, countReferences_eq_zero hl]

/-- Writing parameters by position makes no difference to what can be isolated. -/
theorem canIsolate_toSlots (e : Expr α) :
    (e.toSlots position?).canIsolate h = e.canIsolate h := by
  induction e with
  | param p | slot p _ =>
    rw [toSlots, bindParams]
    cases position? p <;> rfl
  | const _ => rfl
  | unary op e ih =>
    cases op with
    | sqrt | square => exact ih
    | neg | sin | cos | arcsin | arccos => rfl
  | binary op l r ihl ihr =>
    have hl : (l.toSlots position?).dependsOn h = l.dependsOn h := dependsOn_toSlots l
    have hr : (r.toSlots position?).dependsOn h = r.dependsOn h := dependsOn_toSlots r
    rw [toSlots] at hl hr ihl ihr ⊢
    cases op with
    | add | sub | mul => rw [bindParams, canIsolate, canIsolate, hl, hr, ihl, ihr]
    | div => rfl

/-! ## Undoing one operation -/

section
variable [Scalar α] {source a b : Lookup α}

/-- An unknown on the left is isolated by undoing the operation with the right operand. -/
theorem isolateFrom_left {op : BinaryOp} {l r : Expr α} (hop : op ≠ .div)
    (hl : l.dependsOn h = true) (rhs : Expr α) :
    (Expr.binary op l r).isolateFrom source h rhs =
      l.isolateFrom source h (op.undoLeft rhs r) := by
  cases op with
  | add | sub | mul =>
    rw [isolateFrom, if_pos hl]
    rfl
  | div => exact absurd rfl hop

/-- An unknown on the right is isolated by undoing the operation with the left operand. -/
theorem isolateFrom_right {op : BinaryOp} {l r : Expr α} (hop : op ≠ .div)
    (hl : l.dependsOn h = false) (hr : r.dependsOn h = true) (rhs : Expr α) :
    (Expr.binary op l r).isolateFrom source h rhs =
      r.isolateFrom source h (op.undoRight rhs l) := by
  cases op with
  | add | sub | mul =>
    rw [isolateFrom, if_neg (by simp [hl]), if_pos hr]
    rfl
  | div => exact absurd rfl hop

omit [Scalar α] in
/-- What an operation is undone with stays on the right side, and so does what stood there. -/
theorem dependsOn_undoLeft {op : BinaryOp} (hop : op ≠ .div) (rhs r : Expr α) :
    (op.undoLeft rhs r).dependsOn k = (rhs.dependsOn k || r.dependsOn k) := by
  cases op with
  | add | sub | mul => rfl
  | div => exact absurd rfl hop

omit [Scalar α] in
/-- On the other side too, what an operation is undone with stays on the right side. -/
theorem dependsOn_undoRight {op : BinaryOp} (hop : op ≠ .div) (rhs l : Expr α) :
    (op.undoRight rhs l).dependsOn k = (rhs.dependsOn k || l.dependsOn k) := by
  cases op with
  | add | sub | mul => rfl
  | div => exact absurd rfl hop

/-- The root of a square refers to what the square is said to be. -/
theorem dependsOn_nearerRoot (e rhs : Expr α) :
    (nearerRoot source e rhs).dependsOn k = rhs.dependsOn k := by
  simp only [nearerRoot]
  split <;> rfl

/-- Isolation does not fail, and what the parameter equals refers to no other parameters than the
two sides do, and not to itself. -/
theorem dependsOn_isolateFrom (source : Lookup α) {lhs : Expr α} (hcan : lhs.canIsolate h = true) :
    ∀ rhs : Expr α, ∃ x, lhs.isolateFrom source h rhs = .ok x ∧
      ∀ k, x.dependsOn k = true → lhs.dependsOn k = true ∧ k ≠ h ∨ rhs.dependsOn k = true := by
  induction lhs, hcan using induction_canIsolate with
  | param _ => exact fun rhs => ⟨rhs, by simp [isolateFrom], fun _ hd => Or.inr hd⟩
  | slot _ _ => exact fun rhs => ⟨rhs, by simp [isolateFrom], fun _ hd => Or.inr hd⟩
  | sqrt e _ _ ih => exact fun rhs => ih rhs.square
  | square e _ _ ih =>
    intro rhs
    obtain ⟨x, hx, hdep⟩ := ih (nearerRoot source e rhs)
    refine ⟨x, hx, fun k hd => ?_⟩
    have hor := hdep k hd
    rwa [dependsOn_nearerRoot] at hor
  | left op l r _ _ hop hl hr ih =>
    intro rhs
    obtain ⟨x, hx, hdep⟩ := ih (op.undoLeft rhs r)
    refine ⟨x, by rw [isolateFrom_left hop hl, hx], fun k hd => ?_⟩
    rcases hdep k hd with ⟨hk, hne⟩ | hk
    · exact Or.inl ⟨by simp [dependsOn, hk], hne⟩
    · rw [dependsOn_undoLeft hop, Bool.or_eq_true] at hk
      rcases hk with hk | hk
      · exact Or.inr hk
      · refine Or.inl ⟨by simp [dependsOn, hk], ?_⟩
        rintro rfl
        rw [hk] at hr
        cases hr
  | right op l r _ _ hop hl hr ih =>
    intro rhs
    obtain ⟨x, hx, hdep⟩ := ih (op.undoRight rhs l)
    refine ⟨x, by rw [isolateFrom_right hop hl hr, hx], fun k hd => ?_⟩
    rcases hdep k hd with ⟨hk, hne⟩ | hk
    · exact Or.inl ⟨by simp [dependsOn, hk], hne⟩
    · rw [dependsOn_undoRight hop, Bool.or_eq_true] at hk
      rcases hk with hk | hk
      · exact Or.inr hk
      · refine Or.inl ⟨by simp [dependsOn, hk], ?_⟩
        rintro rfl
        rw [hk] at hl
        cases hl

/-! ## What isolation is right for -/

/-- What holds of a reference to the parameter and what is found for it, and is handed up by every
operation that isolation undoes, holds of the equation that isolation has started from. Nothing is
asked of the operand that is not gone into, which may refer to the parameter as well. -/
theorem induction_isolateFrom {found : Expr α} {motive : (lhs rhs : Expr α) → Prop}
    (reference : ∀ e : Expr α, e.handle? = some h → motive e found)
    (sqrt : ∀ e rhs, motive e rhs.square → motive (.unary .sqrt e) rhs)
    (square : ∀ e rhs, motive e (nearerRoot source e rhs) → motive (.unary .square e) rhs)
    (left : ∀ op l r rhs, op ≠ .div → l.dependsOn h = true →
      motive l (op.undoLeft rhs r) → motive (.binary op l r) rhs)
    (right : ∀ op l r rhs, op ≠ .div → l.dependsOn h = false → r.dependsOn h = true →
      motive r (op.undoRight rhs l) → motive (.binary op l r) rhs) :
    ∀ lhs rhs, lhs.isolateFrom source h rhs = .ok found → motive lhs rhs := by
  intro lhs
  induction lhs with
  | param p | slot p _ =>
    intro rhs hfound
    rw [isolateFrom] at hfound
    split at hfound
    · next heq =>
      cases hfound
      exact reference _ (congrArg some heq)
    · cases hfound
  | const _ => exact fun _ => nofun
  | unary op e ih =>
    intro rhs hfound
    cases op with
    | sqrt => exact sqrt e rhs (ih _ hfound)
    | square => exact square e rhs (ih _ hfound)
    | neg | sin | cos | arcsin | arccos => cases hfound
  | binary op l r ihl ihr =>
    intro rhs hfound
    have hop : op ≠ .div := by
      rintro rfl
      cases hfound
    by_cases hl : l.dependsOn h = true
    · rw [isolateFrom_left hop hl] at hfound
      exact left op l r rhs hop hl (ihl _ hfound)
    · rw [Bool.not_eq_true] at hl
      have hr : r.dependsOn h = true := by
        by_contra hr
        cases op <;> simp [isolateFrom, hl, hr] at hfound hop
      rw [isolateFrom_right hop hl hr] at hfound
      exact right op l r rhs hop hl hr (ihr _ hfound)

/-- If what is found for the parameter does not refer to it, the parameter was in one operand only
all the way down: another one that has it would have been moved to the right side and stayed
there. -/
theorem canIsolate_of_isolateFrom {found : Expr α} (hfree : found.dependsOn h = false) :
    ∀ lhs rhs : Expr α, lhs.isolateFrom source h rhs = .ok found →
      rhs.dependsOn h = false ∧ lhs.canIsolate h = true := by
  refine induction_isolateFrom ?reference ?sqrt ?square ?left ?right
  case reference =>
    intro e he
    refine ⟨hfree, ?_⟩
    cases e <;> cases he <;> exact beq_self_eq_true _
  case sqrt => exact fun _ _ ih => ih
  case square =>
    intro e rhs ih
    rwa [dependsOn_nearerRoot] at ih
  case left =>
    intro op l r rhs hop hl ih
    rw [dependsOn_undoLeft hop, Bool.or_eq_false_iff] at ih
    obtain ⟨⟨hrhs, hr⟩, hcan⟩ := ih
    refine ⟨hrhs, ?_⟩
    cases op with
    | add | sub | mul =>
      rw [canIsolate, hl, hr]
      exact hcan
    | div => exact absurd rfl hop
  case right =>
    intro op l r rhs hop hl hr ih
    rw [dependsOn_undoRight hop, Bool.or_eq_false_iff] at ih
    obtain ⟨⟨hrhs, _⟩, hcan⟩ := ih
    refine ⟨hrhs, ?_⟩
    cases op with
    | add | sub | mul =>
      rw [canIsolate, hl, hr]
      exact hcan
    | div => exact absurd rfl hop

/-- The check before isolation is exact: an equation passes it if and only if isolation runs through
and what it finds does not refer to the parameter, at whatever values. Then the equation refers to
the parameter once. -/
theorem canIsolate_iff_isolate (source : Lookup α) (h : ParamHandle) (e : Expr α) :
    (e.canIsolate h = true ↔
        ∃ found, e.isolate source h = .ok found ∧ found.dependsOn h = false) ∧
      (e.canIsolate h = true → e.countReferences h = 1) := by
  refine ⟨⟨fun hcan => ?_, ?_⟩, countReferences_of_canIsolate⟩
  · obtain ⟨found, hfound, hparams⟩ := dependsOn_isolateFrom source hcan (.const 0)
    refine ⟨found, hfound, Bool.eq_false_iff.2 fun hdep => ?_⟩
    rcases hparams h hdep with ⟨_, hne⟩ | hconst
    · exact hne rfl
    · cases hconst
  · rintro ⟨found, hfound, hfree⟩
    exact (canIsolate_of_isolateFrom hfree e _ hfound).2

/-- Isolation runs through where both factors have the parameter, and what it finds is of no use. -/
example (source : Lookup α) :
    (.param ⟨1⟩ * .param ⟨1⟩ : Expr α).isolate source ⟨1⟩ = .ok (.const 0 / .param ⟨1⟩) := rfl

/-! ## What isolation reads -/

/-- Isolation reads the values of the parameters of the two sides, and no others. -/
theorem isolateFrom_congr {v w : ParamHandle → α} {lhs : Expr α} (hcan : lhs.canIsolate h = true)
    (hlhs : ∀ k, lhs.dependsOn k = true → v k = w k) :
    ∀ rhs : Expr α, (∀ k, rhs.dependsOn k = true → v k = w k) →
      lhs.isolateFrom (.byHandle v) h rhs = lhs.isolateFrom (.byHandle w) h rhs := by
  induction lhs, hcan using induction_canIsolate with
  | param _ => exact fun _ _ => rfl
  | slot _ _ => exact fun _ _ => rfl
  | sqrt e _ _ ih => exact fun rhs hrhs => ih hlhs rhs.square hrhs
  | square e _ _ ih =>
    intro rhs hrhs
    have hroot : nearerRoot (.byHandle v) e rhs = nearerRoot (.byHandle w) e rhs := by
      have hpresent : e.eval (.byHandle v) = e.eval (.byHandle w) := eval_byHandle_congr hlhs
      have hpositive : rhs.sqrt.eval (.byHandle v) = rhs.sqrt.eval (.byHandle w) :=
        eval_byHandle_congr hrhs
      simp only [nearerRoot, hpresent, hpositive]
    rw [isolateFrom, isolateFrom, hroot]
    refine ih hlhs _ fun k hk => hrhs k ?_
    rwa [dependsOn_nearerRoot] at hk
  | left op l r _ _ hop hl hr ih =>
    intro rhs hrhs
    rw [isolateFrom_left hop hl, isolateFrom_left hop hl]
    refine ih (fun k hk => hlhs k (by simp [dependsOn, hk])) _ fun k hk => ?_
    rw [dependsOn_undoLeft hop, Bool.or_eq_true] at hk
    rcases hk with hk | hk
    · exact hrhs k hk
    · exact hlhs k (by simp [dependsOn, hk])
  | right op l r _ _ hop hl hr ih =>
    intro rhs hrhs
    rw [isolateFrom_right hop hl hr, isolateFrom_right hop hl hr]
    refine ih (fun k hk => hlhs k (by simp [dependsOn, hk])) _ fun k hk => ?_
    rw [dependsOn_undoRight hop, Bool.or_eq_true] at hk
    rcases hk with hk | hk
    · exact hrhs k hk
    · exact hlhs k (by simp [dependsOn, hk])

/-- Isolation commutes with writing parameters by position. -/
theorem isolateFrom_toSlots
    (hslot : ∀ k i, position? k = some i → source.slot i k = source.value k) {lhs : Expr α}
    (hcan : lhs.canIsolate h = true) :
    ∀ {rhs x : Expr α}, lhs.isolateFrom (.byHandle source.value) h rhs = .ok x →
      (lhs.toSlots position?).isolateFrom source h (rhs.toSlots position?) =
        .ok (x.toSlots position?) := by
  have hhandle : ∀ rhs : Expr α, (toSlots position? (.param h)).isolateFrom source h rhs =
      .ok rhs := by
    intro rhs
    rw [toSlots, bindParams]
    cases position? h with
    | none => exact if_pos rfl
    | some i => exact if_pos rfl
  induction lhs, hcan using induction_canIsolate with
  | param _ | slot _ _ =>
    intro rhs x hx
    rw [isolateFrom, if_pos rfl] at hx
    cases hx
    exact hhandle _
  | sqrt e _ _ ih => exact fun {rhs x} hx => @ih rhs.square x hx
  | square e _ _ ih =>
    intro rhs x hx
    have hroot : nearerRoot source (e.toSlots position?) (rhs.toSlots position?) =
        (nearerRoot (.byHandle source.value) e rhs).toSlots position? := by
      have hpresent := eval_toSlots hslot e
      have hpositive : (rhs.toSlots position?).sqrt.eval source =
          rhs.sqrt.eval (.byHandle source.value) := eval_toSlots hslot rhs.sqrt
      simp only [nearerRoot, hpresent, hpositive]
      split <;> rfl
    rw [isolateFrom] at hx
    have hrest := ih hx
    rw [← hroot] at hrest
    exact hrest
  | left op l r _ _ hop hl hr ih =>
    intro rhs x hx
    rw [isolateFrom_left hop hl] at hx
    show (Expr.binary op (l.toSlots position?) (r.toSlots position?)).isolateFrom source h _ = _
    rw [isolateFrom_left hop (by rw [dependsOn_toSlots, hl])]
    have hrest := ih hx
    cases op <;> exact hrest
  | right op l r _ _ hop hl hr ih =>
    intro rhs x hx
    rw [isolateFrom_right hop hl hr] at hx
    show (Expr.binary op (l.toSlots position?) (r.toSlots position?)).isolateFrom source h _ = _
    rw [isolateFrom_right hop (by rw [dependsOn_toSlots, hl]) (by rw [dependsOn_toSlots, hr])]
    have hrest := ih hx
    cases op <;> exact hrest

end
end Expr
end SketchSolver
