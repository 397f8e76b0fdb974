import SketchSolver.Expr.Derivative
import SketchSolver.Expr.Eval
import SketchSolver.Expr.Fold
import SketchSolver.Expr.Replacement

/-!
# The parameters of an expression

An expression has a value that depends only on the parameters it refers to (`Expr.eval_congr`), and
each way the solver looks at parameters is read off `Expr.dependsOn`: the list of them
(`Expr.mem_params`), the only one of a kind (`Expr.referenced_eq_exactly`), and those of an
expression after its parameters were replaced or its constants folded. Writing parameters by
position keeps the value (`Expr.eval_toSlots`), renaming them reads each at its new name
(`Expr.eval_rename`).
-/

namespace SketchSolver

namespace Expr

/-- The subexpressions, the expression itself among them. -/
def parts : Expr α → List (Expr α)
  | .unary op e => .unary op e :: e.parts
  | .binary op l r => .binary op l r :: (l.parts ++ r.parts)
  | e => [e]

/-! ## Lists of parameters -/

/-- The members of a list with an element at its end. -/
theorem mem_appendNew {seen : List ParamHandle} {h x : ParamHandle} :
    x ∈ appendNew seen h ↔ x ∈ seen ∨ h = x := by
  unfold appendNew
  split
  · next hmem =>
    constructor
    · exact Or.inl
    · rintro (hx | rfl)
      · exact hx
      · exact hmem
  · simp [eq_comm]

/-- The list after an expression holds what it held and the parameters of the expression. -/
theorem mem_paramsAfter {h : ParamHandle} (e : Expr α) (seen : List ParamHandle) :
    h ∈ e.paramsAfter seen ↔ h ∈ seen ∨ e.dependsOn h = true := by
  induction e generalizing seen with
  | param p => simp [paramsAfter, dependsOn, mem_appendNew]
  | slot p _ => simp [paramsAfter, dependsOn, mem_appendNew]
  | const _ => simp [paramsAfter, dependsOn]
  | unary _ e ih => exact ih seen
  | binary _ l r ihl ihr =>
    simp only [paramsAfter, dependsOn, Bool.or_eq_true]
    rw [ihr, ihl, or_assoc]

/-- The parameters of an expression are those it depends on. -/
@[simp] theorem mem_params {h : ParamHandle} {e : Expr α} :
    h ∈ e.params ↔ e.dependsOn h = true := by
  simp [params, mem_paramsAfter]

/-- An expression that does not depend on a parameter refers to it no time. -/
theorem countReferences_eq_zero {h : ParamHandle} {e : Expr α} (he : e.dependsOn h = false) :
    e.countReferences h = 0 := by
  induction e with
  | param _ | slot _ _ => simpa [dependsOn, countReferences] using he
  | const _ => rfl
  | unary _ e ih => exact ih he
  | binary _ l r ihl ihr =>
    obtain ⟨hl, hr⟩ := Bool.or_eq_false_iff.1 he
    rw [countReferences, ihl hl, ihr hr]

/-! ## The parameters of a kind -/

/-- No parameter of the kind is referred to, if none is found. -/
theorem referenced_eq_none {p : ParamHandle → Bool} {e : Expr α} (he : e.referenced p = .none) :
    ∀ h, e.dependsOn h = true → p h = false := by
  induction e with
  | param q | slot q _ =>
    intro h hd
    simp only [dependsOn, beq_iff_eq] at hd
    subst hd
    simp only [referenced] at he
    cases hq : p q with
    | false => rfl
    | true => simp [hq] at he
  | const _ =>
    intro h hd
    simp [dependsOn] at hd
  | unary _ e ih => exact ih he
  | binary _ l r ihl ihr =>
    intro h hd
    simp only [referenced] at he
    simp only [dependsOn, Bool.or_eq_true] at hd
    have hboth : l.referenced p = .none ∧ r.referenced p = .none := by
      revert he
      cases l.referenced p <;> cases r.referenced p <;> simp [Referenced.merge]
      split <;> simp
    exact hd.elim (ihl hboth.1 h) (ihr hboth.2 h)

/-- The one parameter of the kind that is found is referred to, and no other one is. -/
theorem referenced_eq_exactly {p : ParamHandle → Bool} {e : Expr α} {h : ParamHandle}
    (he : e.referenced p = .exactly h) :
    e.dependsOn h = true ∧ p h = true ∧ ∀ x, e.dependsOn x = true → p x = true → x = h := by
  induction e with
  | param q | slot q _ =>
    simp only [referenced] at he
    split at he
    · next hq =>
      cases he
      refine ⟨by simp [dependsOn], hq, fun x hx _ => ?_⟩
      simp only [dependsOn, beq_iff_eq] at hx
      exact hx.symm
    · cases he
  | const _ => cases he
  | unary _ e ih => exact ih he
  | binary _ l r ihl ihr =>
    simp only [referenced] at he
    have hcases : (l.referenced p = .none ∧ r.referenced p = .exactly h) ∨
        (l.referenced p = .exactly h ∧ r.referenced p = .none) ∨
        (l.referenced p = .exactly h ∧ r.referenced p = .exactly h) := by
      revert he
      cases l.referenced p <;> cases r.referenced p <;> simp [Referenced.merge]
      split
      · next heq => subst heq; simp
      · simp
    simp only [dependsOn, Bool.or_eq_true]
    rcases hcases with ⟨hl, hr⟩ | ⟨hl, hr⟩ | ⟨hl, hr⟩
    · obtain ⟨hd, hp, honly⟩ := ihr hr
      refine ⟨Or.inr hd, hp, fun x hx hpx => hx.elim (fun hx => ?_) (fun hx => honly x hx hpx)⟩
      rw [referenced_eq_none hl x hx] at hpx
      cases hpx
    · obtain ⟨hd, hp, honly⟩ := ihl hl
      refine ⟨Or.inl hd, hp, fun x hx hpx => hx.elim (fun hx => honly x hx hpx) (fun hx => ?_)⟩
      rw [referenced_eq_none hr x hx] at hpx
      cases hpx
    · obtain ⟨hd, hp, honly⟩ := ihl hl
      obtain ⟨_, _, honly'⟩ := ihr hr
      exact ⟨Or.inl hd, hp, fun x hx hpx =>
        hx.elim (fun hx => honly x hx hpx) (fun hx => honly' x hx hpx)⟩

/-- Several parameters of the kind are referred to, if several are found. -/
theorem exists_of_referenced_eq_multiple {p : ParamHandle → Bool} {e : Expr α}
    (he : e.referenced p = .multiple) :
    ∃ a b, a ≠ b ∧ (e.dependsOn a = true ∧ p a = true) ∧ e.dependsOn b = true ∧ p b = true := by
  induction e with
  | param q | slot q _ =>
    simp only [referenced] at he
    split at he <;> cases he
  | const _ => cases he
  | unary _ e ih => exact ih he
  | binary _ l r ihl ihr =>
    simp only [referenced] at he
    have hcases : l.referenced p = .multiple ∨ r.referenced p = .multiple ∨
        ∃ a b, a ≠ b ∧ l.referenced p = .exactly a ∧ r.referenced p = .exactly b := by
      revert he
      cases l.referenced p <;> cases r.referenced p <;> simp [Referenced.merge]
    simp only [dependsOn, Bool.or_eq_true]
    rcases hcases with hl | hr | ⟨a, b, hab, hl, hr⟩
    · obtain ⟨a, b, hab, ⟨ha, hpa⟩, hb, hpb⟩ := ihl hl
      exact ⟨a, b, hab, ⟨Or.inl ha, hpa⟩, Or.inl hb, hpb⟩
    · obtain ⟨a, b, hab, ⟨ha, hpa⟩, hb, hpb⟩ := ihr hr
      exact ⟨a, b, hab, ⟨Or.inr ha, hpa⟩, Or.inr hb, hpb⟩
    · obtain ⟨ha, hpa, _⟩ := referenced_eq_exactly hl
      obtain ⟨hb, hpb, _⟩ := referenced_eq_exactly hr
      exact ⟨a, b, hab, ⟨Or.inl ha, hpa⟩, Or.inr hb, hpb⟩

/-- One parameter of the kind is found exactly if it is the only one that is referred to. -/
theorem referenced_eq_exactly_iff {p : ParamHandle → Bool} {e : Expr α} {h : ParamHandle} :
    e.referenced p = .exactly h ↔ ∀ x, e.dependsOn x = true ∧ p x = true ↔ x = h := by
  constructor
  · intro he x
    obtain ⟨hd, hp, honly⟩ := referenced_eq_exactly he
    constructor
    · rintro ⟨hx, hpx⟩
      exact honly x hx hpx
    · rintro rfl
      exact ⟨hd, hp⟩
  · intro honly
    obtain ⟨hd, hp⟩ := (honly h).2 rfl
    cases he : e.referenced p with
    | none => simp [referenced_eq_none he h hd] at hp
    | exactly x =>
      obtain ⟨hx, hpx, _⟩ := referenced_eq_exactly he
      rw [(honly x).1 ⟨hx, hpx⟩]
    | multiple =>
      obtain ⟨a, b, hab, ha, hb⟩ := exists_of_referenced_eq_multiple he
      exact absurd (((honly a).1 ha).trans ((honly b).1 hb).symm) hab

/-! ## Values -/

/-- Two sources that agree on every parameter an expression refers to give it one value. -/
theorem eval_congr [Scalar α] {e : Expr α} {a b : Lookup α}
    (hagree : ∀ h, e.dependsOn h = true →
      a.value h = b.value h ∧ ∀ position, a.slot position h = b.slot position h) :
    e.eval a = e.eval b := by
  induction e with
  | param p => exact (hagree p (by simp [dependsOn])).1
  | slot p position => exact (hagree p (by simp [dependsOn])).2 position
  | const _ => rfl
  | unary op e ih =>
    rw [eval, eval, ih fun h hd => hagree h hd]
  | binary op l r ihl ihr =>
    rw [eval, eval, ihl fun h hd => hagree h (by simp [dependsOn, hd]),
      ihr fun h hd => hagree h (by simp [dependsOn, hd])]

/-- `Expr.eval_congr` for sources that read a position as an alias of its handle. -/
theorem eval_byHandle_congr [Scalar α] {e : Expr α} {a b : ParamHandle → α}
    (hagree : ∀ h, e.dependsOn h = true → a h = b h) :
    e.eval (.byHandle a) = e.eval (.byHandle b) :=
  eval_congr fun h hd => ⟨hagree h hd, fun _ => hagree h hd⟩

/-! ## Replaced parameters -/

/-- What an expression refers to after a replacement is what the replacements of its parameters
refer to. -/
theorem dependsOn_bindParams {f : ParamHandle → Expr α} {h : ParamHandle} (e : Expr α) :
    (e.bindParams f).dependsOn h = true ↔
      ∃ p, e.dependsOn p = true ∧ (f p).dependsOn h = true := by
  induction e with
  | param p | slot p _ => simp [bindParams, dependsOn]
  | const _ => simp [bindParams, dependsOn]
  | unary _ e ih => exact ih
  | binary _ l r ihl ihr =>
    simp only [bindParams, dependsOn, Bool.or_eq_true, ihl, ihr]
    constructor
    · rintro (⟨p, hp, hf⟩ | ⟨p, hp, hf⟩)
      · exact ⟨p, Or.inl hp, hf⟩
      · exact ⟨p, Or.inr hp, hf⟩
    · rintro ⟨p, hp | hp, hf⟩
      · exact Or.inl ⟨p, hp, hf⟩
      · exact Or.inr ⟨p, hp, hf⟩

/-- A replacement has the value that the expression has where each parameter has the value of what
replaces it. -/
theorem eval_bindParams [Scalar α] {f : ParamHandle → Expr α} {source : Lookup α} (e : Expr α) :
    (e.bindParams f).eval source = e.eval (.byHandle fun h => (f h).eval source) := by
  induction e with
  | param _ | slot _ _ | const _ => rfl
  | unary op e ih => rw [bindParams, eval, eval, ih]
  | binary op l r ihl ihr => rw [bindParams, eval, eval, ihl, ihr]

/-- A renamed expression refers to the new names. -/
theorem dependsOn_rename {f : ParamHandle → ParamHandle} {h : ParamHandle} (e : Expr α) :
    (e.rename f).dependsOn h = true ↔ ∃ p, e.dependsOn p = true ∧ f p = h := by
  simp [rename, dependsOn_bindParams, dependsOn]

/-- A renamed expression reads each parameter at its new name. -/
theorem eval_rename [Scalar α] {f : ParamHandle → ParamHandle} {source : Lookup α} (e : Expr α) :
    (e.rename f).eval source = e.eval (.byHandle fun h => source.value (f h)) := by
  rw [rename, eval_bindParams]
  rfl

/-- A renamed expression has no position left. -/
theorem slotsBelow_rename (f : ParamHandle → ParamHandle) (size : Nat) (e : Expr α) :
    (e.rename f).slotsBelow size = true := by
  unfold rename
  induction e with
  | param _ | slot _ _ | const _ => rfl
  | unary _ e ih => exact ih
  | binary _ l r ihl ihr => rw [bindParams, slotsBelow, ihl, ihr, Bool.and_self]

/-- Names that stay the same leave an expression without positions as it is. -/
theorem rename_id {e : Expr α} (he : e.slotsBelow 0 = true) : e.rename id = e := by
  unfold rename
  induction e with
  | param _ | const _ => rfl
  | slot _ _ => simp [slotsBelow] at he
  | unary _ e ih => rw [bindParams, ih he]
  | binary _ l r ihl ihr =>
    obtain ⟨hl, hr⟩ := Bool.and_eq_true_iff.1 he
    rw [bindParams, ihl hl, ihr hr]

/-- A parameter written by its position is still the same parameter. -/
@[simp] theorem dependsOn_toSlots {position? : ParamHandle → Option Nat} {h : ParamHandle}
    (e : Expr α) : (e.toSlots position?).dependsOn h = e.dependsOn h := by
  rw [Bool.eq_iff_iff, toSlots, dependsOn_bindParams]
  have heach : ∀ p, ((Expr.param (α := α) p).toSlots position?).dependsOn h = true ↔ p = h := by
    intro p
    rw [toSlots, bindParams]
    cases position? p <;> simp [dependsOn]
  constructor
  · rintro ⟨p, hp, hh⟩
    rwa [(heach p).1 hh] at hp
  · exact fun hd => ⟨h, hd, (heach h).2 rfl⟩

/-- An expression written by positions has the value that it has by handles, if each position holds
the value of its handle. -/
theorem eval_toSlots [Scalar α] {position? : ParamHandle → Option Nat} {source : Lookup α}
    (hslot : ∀ h i, position? h = some i → source.slot i h = source.value h) (e : Expr α) :
    (e.toSlots position?).eval source = e.eval (.byHandle source.value) := by
  rw [toSlots, eval_bindParams]
  refine eval_byHandle_congr fun h _ => ?_
  cases hp : position? h with
  | none => rfl
  | some i => exact hslot h i hp

end Expr

/-! ## Folded constants -/

/-- A folded unary operation is a constant or the operation itself. -/
theorem UnaryOp.fold_shape [Scalar α] (op : UnaryOp) (e : Expr α) :
    (∃ c, op.fold e = .const c) ∨ op.fold e = .unary op e := by
  cases e <;> simp [UnaryOp.fold]

/-- A folded binary operation is a constant, one of its operands or the operation itself. -/
theorem BinaryOp.fold_shape [Scalar α] (op : BinaryOp) (l r : Expr α) :
    (∃ c, op.fold l r = .const c) ∨ op.fold l r = l ∨ op.fold l r = r ∨
      op.fold l r = .binary op l r := by
  have hzero : ∀ (c : α) (other rest : Expr α),
      dropZero c other rest = other ∨ dropZero c other rest = rest := by
    intro c other rest
    unfold dropZero
    split <;> simp
  have hfactor : ∀ (c : α) (other rest : Expr α), (∃ d, dropFactor c other rest = .const d) ∨
      dropFactor c other rest = other ∨ dropFactor c other rest = rest := by
    intro c other rest
    unfold dropFactor
    split
    · simp
    · split <;> simp
  unfold BinaryOp.fold
  split
  · exact Or.inl ⟨_, rfl⟩
  · next b _ => rcases hzero b l (.binary .add l (.const b)) with h | h <;> simp [h]
  · next a _ => rcases hzero a r (.binary .add (.const a) r) with h | h <;> simp [h]
  · next b _ =>
    rcases hfactor b l (.binary .mul l (.const b)) with ⟨d, h⟩ | h | h <;> simp [h]
  · next a _ =>
    rcases hfactor a r (.binary .mul (.const a) r) with ⟨d, h⟩ | h | h <;> simp [h]
  · exact Or.inr (Or.inr (Or.inr rfl))

namespace Expr

/-- Folding adds no parameter. -/
theorem dependsOn_of_fold [Scalar α] {h : ParamHandle} :
    ∀ {e : Expr α}, e.fold.dependsOn h = true → e.dependsOn h = true := by
  intro e
  induction e with
  | param _ | slot _ _ | const _ => exact id
  | unary op e ih =>
    intro hd
    rw [fold] at hd
    rcases op.fold_shape e.fold with ⟨c, hc⟩ | hc
    · rw [hc] at hd
      cases hd
    · rw [hc] at hd
      exact ih hd
  | binary op l r ihl ihr =>
    intro hd
    rw [fold] at hd
    simp only [dependsOn, Bool.or_eq_true]
    rcases op.fold_shape l.fold r.fold with ⟨c, hc⟩ | hc | hc | hc
    · rw [hc] at hd
      cases hd
    · rw [hc] at hd
      exact Or.inl (ihl hd)
    · rw [hc] at hd
      exact Or.inr (ihr hd)
    · rw [hc] at hd
      simp only [dependsOn, Bool.or_eq_true] at hd
      exact hd.imp ihl ihr

/-- Folding adds no reference to a parameter. -/
theorem countReferences_fold_le [Scalar α] (h : ParamHandle) (e : Expr α) :
    e.fold.countReferences h ≤ e.countReferences h := by
  induction e with
  | param _ | slot _ _ | const _ => exact Nat.le_refl _
  | unary op e ih =>
    rw [fold]
    rcases op.fold_shape e.fold with ⟨c, hc⟩ | hc <;> rw [hc]
    · exact Nat.zero_le _
    · exact ih
  | binary op l r ihl ihr =>
    rw [fold]
    rcases op.fold_shape l.fold r.fold with ⟨c, hc⟩ | hc | hc | hc <;> rw [hc]
    · exact Nat.zero_le _
    · exact Nat.le_trans ihl (Nat.le_add_right ..)
    · exact Nat.le_trans ihr (Nat.le_add_left ..)
    · exact Nat.add_le_add ihl ihr

/-! ## Positions -/

/-- Every position in the expression is one that `P` allows for its handle. -/
def SlotsIn (P : ParamHandle → Nat → Prop) : Expr α → Prop
  | .slot h position => P h position
  | .param _ | .const _ => True
  | .unary _ e => e.SlotsIn P
  | .binary _ l r => l.SlotsIn P ∧ r.SlotsIn P

/-- Positions that are allowed are allowed by whatever allows more. -/
theorem SlotsIn.mono {P Q : ParamHandle → Nat → Prop} (hPQ : ∀ h i, P h i → Q h i) {e : Expr α}
    (hs : e.SlotsIn P) : e.SlotsIn Q := by
  induction e with
  | param _ | const _ => trivial
  | slot h i => exact hPQ h i hs
  | unary _ _ ih => exact ih hs
  | binary _ _ _ ihl ihr => exact ⟨ihl hs.1, ihr hs.2⟩

/-- Folding adds no position. -/
theorem SlotsIn.fold [Scalar α] {P : ParamHandle → Nat → Prop} :
    ∀ {e : Expr α}, e.SlotsIn P → e.fold.SlotsIn P := by
  intro e
  induction e with
  | param _ | slot _ _ | const _ => exact id
  | unary op e ih =>
    intro hs
    rw [Expr.fold]
    rcases op.fold_shape e.fold with ⟨c, hc⟩ | hc
    · rw [hc]
      trivial
    · rw [hc]
      exact ih hs
  | binary op l r ihl ihr =>
    intro hs
    rw [Expr.fold]
    rcases op.fold_shape l.fold r.fold with ⟨c, hc⟩ | hc | hc | hc
    · rw [hc]
      trivial
    · rw [hc]
      exact ihl hs.1
    · rw [hc]
      exact ihr hs.2
    · rw [hc]
      exact ⟨ihl hs.1, ihr hs.2⟩

/-- A partial derivative has no position that the expression has not. -/
theorem SlotsIn.partialWrt [Scalar α] {P : ParamHandle → Nat → Prop} {h : ParamHandle} :
    ∀ {e : Expr α}, e.SlotsIn P → (e.partialWrt h).SlotsIn P := by
  intro e
  induction e with
  | param _ | slot _ _ | const _ => exact fun _ => trivial
  | unary op e ih =>
    intro hs
    have hd := ih hs
    replace hs : e.SlotsIn P := hs
    rw [Expr.partialWrt]
    split
    · cases op <;> simp_all [UnaryOp.chain, SlotsIn, HMul.hMul, Mul.mul, HDiv.hDiv, Div.div,
        HSub.hSub, Sub.sub, Neg.neg, square, sqrt]
    · trivial
  | binary op l r ihl ihr =>
    intro hs
    obtain ⟨hsl, hsr⟩ := hs
    have hl := ihl hsl
    have hr := ihr hsr
    rw [Expr.partialWrt]
    split
    · cases op <;> simp_all [BinaryOp.chain, SlotsIn, HMul.hMul, Mul.mul, HDiv.hDiv, Div.div,
        HSub.hSub, Sub.sub, HAdd.hAdd, Add.add, square]
    · trivial

/-- An expression written by positions has those that its handles are given. -/
theorem slotsIn_toSlots (position? : ParamHandle → Option Nat) (e : Expr α) :
    (e.toSlots position?).SlotsIn fun h i => position? h = some i := by
  have heach : ∀ p, ((Expr.param (α := α) p).toSlots position?).SlotsIn
      fun h i => position? h = some i := by
    intro p
    rw [toSlots, bindParams]
    cases hp : position? p with
    | none => trivial
    | some i => exact hp
  unfold toSlots
  induction e with
  | param p | slot p _ => exact heach p
  | const _ => trivial
  | unary _ e ih => exact ih
  | binary _ l r ihl ihr => exact ⟨ihl, ihr⟩

/-- An expression whose positions lie in an empty table has none. -/
theorem slotsIn_of_slotsBelow_zero {e : Expr α} (he : e.slotsBelow 0 = true) :
    e.SlotsIn fun _ _ => False := by
  induction e with
  | param _ | const _ => trivial
  | slot _ _ => simp [slotsBelow] at he
  | unary _ e ih => exact ih he
  | binary _ l r ihl ihr =>
    obtain ⟨hl, hr⟩ := Bool.and_eq_true_iff.1 he
    exact ⟨ihl hl, ihr hr⟩

/-- Positions are in range if all those are that may be used. -/
theorem SlotsIn.slotsBelow {P : ParamHandle → Nat → Prop} {size : Nat} {e : Expr α}
    (hs : e.SlotsIn P) (hrange : ∀ h i, P h i → i < size) : e.slotsBelow size = true := by
  induction e with
  | param _ | const _ => rfl
  | slot h i => simpa [Expr.slotsBelow] using hrange h i hs
  | unary _ e ih => exact ih hs
  | binary _ l r ihl ihr =>
    rw [Expr.slotsBelow, ihl hs.1, ihr hs.2]
    rfl

/-- An expression has the value that it has by handles, if each position holds the value of its
handle. -/
theorem SlotsIn.eval [Scalar α] {P : ParamHandle → Nat → Prop} {source : Lookup α} {e : Expr α}
    (hs : e.SlotsIn P) (hslot : ∀ h i, P h i → source.slot i h = source.value h) :
    e.eval source = e.eval (.byHandle source.value) := by
  induction e with
  | param _ | const _ => rfl
  | slot h i => exact hslot h i hs
  | unary _ e ih => rw [Expr.eval, Expr.eval, ih hs]
  | binary _ l r ihl ihr => rw [Expr.eval, Expr.eval, ihl hs.1, ihr hs.2]

end Expr

/-! ## Renamed and folded -/

/-- An operation of one operand is folded in the same way after a renaming. -/
theorem UnaryOp.fold_rename [Scalar α] (f : ParamHandle → ParamHandle) (op : UnaryOp)
    (e : Expr α) : op.fold (e.rename f) = (op.fold e).rename f := by
  cases e <;> rfl

/-- An operation of two operands is folded in the same way after a renaming. -/
theorem BinaryOp.fold_rename [Scalar α] (f : ParamHandle → ParamHandle) (op : BinaryOp)
    (l r : Expr α) : op.fold (l.rename f) (r.rename f) = (op.fold l r).rename f := by
  simp only [Expr.rename]
  cases op <;> cases l <;> cases r <;>
    simp only [Expr.bindParams, BinaryOp.fold, dropZero, dropFactor, apply_ite (Expr.bindParams _)]

/-- Renaming parameters makes no difference to what is folded. -/
theorem Expr.fold_rename [Scalar α] (f : ParamHandle → ParamHandle) (e : Expr α) :
    (e.rename f).fold = e.fold.rename f := by
  induction e with
  | param _ | slot _ _ | const _ => rfl
  | unary op e ih =>
    rw [fold, ← UnaryOp.fold_rename, ← ih]
    rfl
  | binary op l r ihl ihr =>
    rw [fold, ← BinaryOp.fold_rename, ← ihl, ← ihr]
    rfl

/-! ## Written by position and folded -/

section
variable [Scalar α] {position? : ParamHandle → Option Nat}

/-- An operation of one operand is folded in the same way if its parameters are written by
position. -/
theorem UnaryOp.fold_toSlots (op : UnaryOp) (e : Expr α) :
    op.fold (e.toSlots position?) = (op.fold e).toSlots position? := by
  cases e with
  | param h | slot h _ =>
    simp only [fold, Expr.toSlots, Expr.bindParams]
    cases position? h <;> rfl
  | const _ | unary _ _ | binary _ _ _ => rfl

/-- An operation of two operands is folded in the same way if its parameters are written by
position. -/
theorem BinaryOp.fold_toSlots (op : BinaryOp) (l r : Expr α) :
    op.fold (l.toSlots position?) (r.toSlots position?) = (op.fold l r).toSlots position? := by
  simp only [Expr.toSlots]
  -- Folding asks which operands are constants, and neither form of a parameter is one.
  cases op <;> cases l <;> cases r <;> simp only [Expr.bindParams] <;> (repeat' split) <;>
    simp only [BinaryOp.fold, dropZero, dropFactor, Expr.bindParams,
      apply_ite (Expr.bindParams _), *]

/-- Writing parameters by position makes no difference to what is folded. -/
theorem Expr.fold_toSlots (e : Expr α) :
    (e.toSlots position?).fold = e.fold.toSlots position? := by
  induction e with
  | param h | slot h _ =>
    simp only [fold, toSlots, bindParams]
    cases position? h <;> rfl
  | const _ => rfl
  | unary op e ih =>
    rw [fold, ← UnaryOp.fold_toSlots, ← ih]
    rfl
  | binary op l r ihl ihr =>
    rw [fold, ← BinaryOp.fold_toSlots, ← ihl, ← ihr]
    rfl

/-- Writing parameters by position makes no difference to a derivative. -/
theorem Expr.partialWrt_toSlots (h : ParamHandle) (e : Expr α) :
    (e.toSlots position?).partialWrt h = (e.partialWrt h).toSlots position? := by
  induction e with
  | param p | slot p _ =>
    simp only [toSlots, bindParams, partialWrt]
    cases position? p <;> rfl
  | const _ => rfl
  | unary op e ih =>
    rw [show (Expr.unary op e).toSlots position? = .unary op (e.toSlots position?) from rfl,
      partialWrt, partialWrt, dependsOn_toSlots, ih]
    split
    · cases op <;> rfl
    · rfl
  | binary op l r ihl ihr =>
    rw [show (Expr.binary op l r).toSlots position? =
      .binary op (l.toSlots position?) (r.toSlots position?) from rfl, partialWrt, partialWrt,
      dependsOn_toSlots, dependsOn_toSlots, ihl, ihr]
    split
    · cases op <;> rfl
    · rfl

end

/-! ## Renamed or not -/

/-- An expression has been renamed, or left as it was if every name stays the same. -/
def Expr.RenamedBy (f : ParamHandle → ParamHandle) (e e' : Expr α) : Prop :=
  e' = e.rename f ∨ f = id ∧ e' = e

namespace Expr.RenamedBy

variable {f : ParamHandle → ParamHandle} {e e' : Expr α}

/-- A renamed expression refers to the new names of what the expression refers to. -/
theorem dependsOn (he : e.RenamedBy f e') (h : ParamHandle) :
    e'.dependsOn h = true ↔ ∃ x, e.dependsOn x = true ∧ f x = h := by
  rcases he with rfl | ⟨rfl, rfl⟩
  · rw [dependsOn_rename]
  · simp

/-- A renamed expression reads each parameter at its new name. -/
theorem eval [Scalar α] (he : e.RenamedBy f e') (v : ParamHandle → α) :
    e'.eval (.byHandle v) = e.eval (.byHandle fun x => v (f x)) := by
  rcases he with rfl | ⟨rfl, rfl⟩
  · rw [eval_rename]
    rfl
  · rfl

/-- Folding a renamed expression gives a renaming of the folded one. -/
theorem fold [Scalar α] (he : e.RenamedBy f e') : e.fold.RenamedBy f e'.fold := by
  rcases he with rfl | ⟨rfl, rfl⟩
  · exact Or.inl (e.fold_rename f)
  · exact Or.inr ⟨rfl, rfl⟩

end Expr.RenamedBy

end SketchSolver
