import SketchSolver.Proofs.Expr.Parameters

/-!
# What folding leaves

Folding carries out an operation on constants and drops an operation that does nothing
(`Expr.Foldable`). The result may be the constant for which the operation above can be carried out
or dropped, at any height. One walk is enough all the same (`Expr.fold_exhausts`): operands are
folded first, and a folded operation is a constant, a folded operand, or the operation on folded
operands, where it stays only if it is not foldable itself (`BinaryOp.fold_of_foldable`).

Nothing is asked of the numbers. What counts as zero or one is decided by their own comparison, so
on doubles a zero of either sign is dropped and an undefined constant is not.
-/

namespace SketchSolver

namespace Expr

/-! ## Foldable operations -/

/-- The operation at the root has only constants for its operands, or is a sum with a constant zero
or a product with a constant one or zero. -/
inductive Foldable [Scalar α] : Expr α → Prop where
  | unary (op : UnaryOp) (c : α) : Foldable (.unary op (.const c))
  | binary (op : BinaryOp) (a b : α) : Foldable (.binary op (.const a) (.const b))
  | addConst (l : Expr α) {c : α} (hc : (c == 0) = true) : Foldable (.binary .add l (.const c))
  | constAdd {c : α} (r : Expr α) (hc : (c == 0) = true) : Foldable (.binary .add (.const c) r)
  | mulConst (l : Expr α) {c : α} (hc : (c == 1) = true ∨ (c == 0) = true) :
      Foldable (.binary .mul l (.const c))
  | constMul {c : α} (r : Expr α) (hc : (c == 1) = true ∨ (c == 0) = true) :
      Foldable (.binary .mul (.const c) r)

/-- No operation of the expression is foldable. -/
def IsFolded [Scalar α] (e : Expr α) : Prop :=
  ∀ s ∈ e.parts, ¬ Foldable s

variable [Scalar α] {e l r : Expr α}

/-- What is no operation has nothing to fold. -/
theorem isFolded_of_operands_eq_nil (he : e.operands = []) : e.IsFolded := by
  cases e with
  | param _ | slot _ _ | const _ =>
    intro s hs
    obtain rfl := List.mem_singleton.1 hs
    nofun
  | unary _ _ | binary _ _ _ => cases he

/-- An operation of one operand is folded if it is not foldable and its operand is folded. -/
theorem isFolded_unary {op : UnaryOp} :
    (Expr.unary op e).IsFolded ↔ ¬ Foldable (.unary op e) ∧ e.IsFolded :=
  List.forall_mem_cons

/-- An operation of two operands is folded if it is not foldable and both operands are folded. -/
theorem isFolded_binary {op : BinaryOp} : (Expr.binary op l r).IsFolded ↔
    ¬ Foldable (.binary op l r) ∧ l.IsFolded ∧ r.IsFolded :=
  List.forall_mem_cons.trans (and_congr_right fun _ => List.forall_mem_append)

end Expr

open SketchSolver.Expr (Foldable IsFolded)

/-! ## One operation -/

section
variable [Scalar α] {e l r : Expr α}

/-- An operation that is not foldable stays. -/
theorem UnaryOp.fold_eq {op : UnaryOp} (h : ¬ Foldable (.unary op e)) :
    op.fold e = .unary op e := by
  cases e with
  | const c => exact absurd (.unary op c) h
  | param _ | slot _ _ | unary _ _ | binary _ _ _ => rfl

/-- One step of folding over a folded operand leaves nothing to fold. -/
theorem UnaryOp.isFolded_fold (op : UnaryOp) (he : e.IsFolded) : (op.fold e).IsFolded := by
  by_cases h : Foldable (.unary op e)
  · cases h with
    | unary _ c => exact Expr.isFolded_of_operands_eq_nil rfl
  · rw [op.fold_eq h]
    exact Expr.isFolded_unary.2 ⟨h, he⟩

/-- An operation that is not foldable stays. -/
theorem BinaryOp.fold_eq {op : BinaryOp} (h : ¬ Foldable (.binary op l r)) :
    op.fold l r = .binary op l r := by
  unfold BinaryOp.fold
  split
  · next a b => exact absurd (.binary op a b) h
  · next b _ => exact if_neg fun hb => h (.addConst l hb)
  · next a _ => exact if_neg fun ha => h (.constAdd r ha)
  · next b _ =>
    exact (if_neg fun hb => h (.mulConst l (.inl hb))).trans
      (if_neg fun hb => h (.mulConst l (.inr hb)))
  · next a _ =>
    exact (if_neg fun ha => h (.constMul r (.inl ha))).trans
      (if_neg fun ha => h (.constMul r (.inr ha)))
  · rfl

/-- A product with a constant one or zero becomes its other side or zero. -/
theorem dropFactor_of_foldable {c : α} {other rest : Expr α}
    (hc : (c == 1) = true ∨ (c == 0) = true) :
    dropFactor c other rest = other ∨ dropFactor c other rest = .const 0 := by
  unfold dropFactor
  split
  · exact .inl rfl
  · next hone => exact .inr (if_pos (hc.resolve_left hone))

/-- A foldable operation becomes a constant or one of its operands. -/
theorem BinaryOp.fold_of_foldable {op : BinaryOp} (h : Foldable (.binary op l r)) :
    (∃ c, op.fold l r = .const c) ∨ op.fold l r = l ∨ op.fold l r = r := by
  cases h with
  | binary _ a b => exact .inl ⟨op.apply a b, by rw [BinaryOp.fold]⟩
  | addConst l hc =>
    cases l with
    | const a => exact .inl ⟨_, rfl⟩
    | param _ | slot _ _ | unary _ _ | binary _ _ _ => exact .inr (.inl (if_pos hc))
  | constAdd r hc =>
    cases r with
    | const b => exact .inl ⟨_, rfl⟩
    | param _ | slot _ _ | unary _ _ | binary _ _ _ => exact .inr (.inr (if_pos hc))
  | mulConst l hc =>
    cases l with
    | const a => exact .inl ⟨_, rfl⟩
    | param _ | slot _ _ | unary _ _ | binary _ _ _ =>
      exact (dropFactor_of_foldable hc).elim (.inr ∘ .inl) fun h => .inl ⟨0, h⟩
  | constMul r hc =>
    cases r with
    | const b => exact .inl ⟨_, rfl⟩
    | param _ | slot _ _ | unary _ _ | binary _ _ _ =>
      exact (dropFactor_of_foldable hc).elim (.inr ∘ .inr) fun h => .inl ⟨0, h⟩

/-- A folded operation is a constant or one of its operands, or stays as it is. -/
theorem BinaryOp.isFolded_fold (op : BinaryOp) (hl : l.IsFolded) (hr : r.IsFolded) :
    (op.fold l r).IsFolded := by
  by_cases h : Foldable (.binary op l r)
  · rcases fold_of_foldable h with ⟨c, hc⟩ | hc | hc <;> rw [hc]
    · exact Expr.isFolded_of_operands_eq_nil rfl
    · exact hl
    · exact hr
  · rw [fold_eq h]
    exact Expr.isFolded_binary.2 ⟨h, hl, hr⟩

end

/-! ## The whole walk -/

namespace Expr

variable [Scalar α] {e : Expr α}

/-- No operation of a folded expression is foldable: the walk folds operands first. -/
theorem isFolded_fold (e : Expr α) : e.fold.IsFolded := by
  induction e with
  | param _ | slot _ _ | const _ => exact isFolded_of_operands_eq_nil rfl
  | unary op e ih => exact op.isFolded_fold ih
  | binary op l r ihl ihr => exact op.isFolded_fold ihl ihr

/-- What is folded is not changed by folding it again. -/
theorem IsFolded.fold_eq (he : e.IsFolded) : e.fold = e := by
  induction e with
  | param _ | slot _ _ | const _ => rfl
  | unary op e ih =>
    obtain ⟨hroot, he⟩ := isFolded_unary.1 he
    rw [fold, ih he, op.fold_eq hroot]
  | binary op l r ihl ihr =>
    obtain ⟨hroot, hl, hr⟩ := isFolded_binary.1 he
    rw [fold, ihl hl, ihr hr, op.fold_eq hroot]

/-- Folding leaves nothing to fold. -/
theorem fold_exhausts (e : Expr α) : e.fold.IsFolded ∧ e.fold.fold = e.fold ∧
    e.fold.foldsToZero = e.foldsToZero ∧ (e.fold = e ↔ e.IsFolded) := by
  have hagain := e.isFolded_fold.fold_eq
  refine ⟨e.isFolded_fold, hagain, ?_, fun h => ?_, IsFolded.fold_eq⟩
  · rw [foldsToZero, hagain, foldsToZero]
  · rw [← h]
    exact e.isFolded_fold

-- Twice a negative zero is zero, so the sum goes with it, and then the product with one.
example : ((.param ⟨1⟩ + .const 2 * .const (-0.0)) * .const 1 : Expr Float).fold = .param ⟨1⟩ := by
  decide +kernel

-- An undefined constant is neither zero nor one, so the product stays.
example : (.param ⟨1⟩ * (.const 0 / .const 0) : Expr Float).fold =
    .param ⟨1⟩ * .const (0.0 / 0.0) := by
  decide +kernel

end Expr

end SketchSolver
