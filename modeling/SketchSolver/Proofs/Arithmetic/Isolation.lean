import SketchSolver.Proofs.Arithmetic.Satisfied

/-!
# Equations solved for a parameter

What isolation finds for a parameter makes the equation hold (`Expr.isolate_solves`), if all that it
undoes on the way down to the parameter can be undone (`Expr.undoable`). Going down, each operation
is undone on the right side; coming back up with the value that was found, each gives back the value
that its side of the equation had before. For a square root this takes a right side that is not
negative, which is squared without a question, and for a square either root does.

Where the equation holds already, what is found has the value that the parameter has
(`Expr.isolate_keeps`), since of the two roots of a square the one on the present side is taken.

The source of values is any one, and a parameter may be written by its handle or by a position. The
present value of the parameter is read where a root is chosen, and nowhere else.
-/

namespace SketchSolver

/-- The source with another value for a parameter, however the parameter is written. -/
def Lookup.withValue (source : Lookup α) (h : ParamHandle) (x : α) : Lookup α where
  value k := if k = h then x else source.value k
  slot position k := if k = h then x else source.slot position k

/-- What does not refer to the parameter has the value it had. -/
theorem Expr.eval_withValue [Scalar α] {source : Lookup α} {h : ParamHandle} {x : α} {e : Expr α}
    (he : e.dependsOn h = false) : e.eval (source.withValue h x) = e.eval source := by
  refine eval_congr fun k hk => ?_
  have hne : k ≠ h := by
    rintro rfl
    rw [he] at hk
    cases hk
  exact ⟨if_neg hne, fun _ => if_neg hne⟩

/-- Everything on the way down to `h` can be undone: no factor that is divided by is zero, no value
that a root is taken of is negative, and neither is one that is squared since a square root is to
have it. -/
def Expr.undoable [Scalar α] (source : Lookup α) (h : ParamHandle) : (lhs rhs : Expr α) → Bool
  | .unary .sqrt e, rhs =>
    decide (0 ≤ rhs.eval source) && e.undoable source h rhs.square
  | .unary .square e, rhs =>
    decide (0 ≤ rhs.eval source) && e.undoable source h (nearerRoot source e rhs)
  | .binary op l r, rhs =>
    if l.dependsOn h then
      op.undoable (r.eval source) && l.undoable source h (op.undoLeft rhs r)
    else op.undoable (l.eval source) && r.undoable source h (op.undoRight rhs l)
  | _, _ => true

/-- The squares that are undone on the way down to `h`, each by its base and by the root that the
base is said to equal. -/
def Expr.rootsTaken [Scalar α] (source : Lookup α) (h : ParamHandle) :
    (lhs rhs : Expr α) → List (Expr α × Expr α)
  | .unary .sqrt e, rhs => e.rootsTaken source h rhs.square
  | .unary .square e, rhs =>
    (e, nearerRoot source e rhs) :: e.rootsTaken source h (nearerRoot source e rhs)
  | .binary op l r, rhs =>
    if l.dependsOn h then l.rootsTaken source h (op.undoLeft rhs r)
    else r.rootsTaken source h (op.undoRight rhs l)
  | _, _ => []

section
variable [Field K] [LinearOrder K] [PartialFunctions K] {source : Lookup (Exact K)} {x y : K}
  {a : Exact K} {h : ParamHandle} {lhs e : Expr (Exact K)}

/-! ## Coming back up -/

/-- With the value that was found for the parameter, the two sides are equal. -/
theorem Expr.eval_withValue_of_isolateFrom [LawfulRoot K] (hcan : lhs.canIsolate h = true) :
    ∀ {rhs found : Expr (Exact K)}, lhs.isolateFrom source h rhs = .ok found →
      lhs.undoable source h rhs = true → found.eval source = .number x →
      ∃ y, rhs.eval source = .number y ∧
        lhs.eval (source.withValue h (.number x)) = .number y := by
  induction lhs, hcan using Expr.induction_canIsolate with
  | param _ | slot _ _ =>
    intro rhs found hfound _ hx
    rw [isolateFrom, if_pos rfl] at hfound
    cases hfound
    exact ⟨x, hx, if_pos rfl⟩
  | sqrt e _ _ ih =>
    intro rhs found hfound hundo hx
    obtain ⟨hnonneg, hundo⟩ := Bool.and_eq_true_iff.1 hundo
    obtain ⟨z, hz, he⟩ := @ih rhs.square found hfound hundo hx
    obtain ⟨y, y', hy, hy', hyy⟩ := Exact.mul_eq_number.1 hz
    obtain rfl : y = y' := Exact.number.inj (hy.symm.trans hy')
    rw [decide_eq_true_eq, hy] at hnonneg
    exact ⟨y, hy, Exact.sqrt_eq_number.2 ⟨z, he, hnonneg, hyy⟩⟩
  | square e _ _ ih =>
    intro rhs found hfound hundo hx
    obtain ⟨_, hundo⟩ := Bool.and_eq_true_iff.1 hundo
    obtain ⟨z, hz, he⟩ := @ih (nearerRoot source e rhs) found hfound hundo hx
    exact ⟨z * z, eval_nearerRoot hz, Exact.mul_eq_number.2 ⟨z, z, he, he, rfl⟩⟩
  | left op l r _ _ hop hl hr ih =>
    intro rhs found hfound hundo hx
    rw [isolateFrom_left hop hl] at hfound
    rw [undoable, if_pos hl, Bool.and_eq_true_iff] at hundo
    obtain ⟨z, hz, he⟩ := ih hfound hundo.2 hx
    obtain ⟨y, b, hy, hb, hback⟩ := BinaryOp.eval_undoLeft hop hz
    refine ⟨y, hy, ?_⟩
    rw [eval, eval_withValue hr, hb]
    exact (hback _).2 he
  | right op l r _ _ hop hl hr ih =>
    intro rhs found hfound hundo hx
    rw [isolateFrom_right hop hl hr] at hfound
    rw [undoable, if_neg (ne_true_of_eq_false hl), Bool.and_eq_true_iff] at hundo
    obtain ⟨z, hz, he⟩ := ih hfound hundo.2 hx
    obtain ⟨y, b, hy, hb, hback⟩ := BinaryOp.eval_undoRight hop hz
    refine ⟨y, hy, ?_⟩
    rw [eval, eval_withValue hl, hb]
    exact (hback _).2 he

/-! ## Going down -/

/-- Undoing an operation that can be undone on a number leaves a number. -/
theorem BinaryOp.isNumber_undoLeft {op : BinaryOp} {rhs r : Expr (Exact K)}
    (hundo : op.undoable (r.eval source) = true) (hrhs : Exact.IsNumber (rhs.eval source))
    (hr : Exact.IsNumber (r.eval source)) : Exact.IsNumber ((op.undoLeft rhs r).eval source) := by
  cases op with
  | add => exact Exact.isNumber_sub.2 ⟨hrhs, hr⟩
  | sub => exact Exact.isNumber_add.2 ⟨hrhs, hr⟩
  | mul =>
    obtain ⟨⟨y, hy⟩, z, hz⟩ := hrhs, hr
    rw [BinaryOp.undoable, hz, Bool.not_eq_true'] at hundo
    refine ⟨y / z, Exact.div_eq_number.2 ⟨y, z, hy, hz, ?_, rfl⟩⟩
    rintro rfl
    exact absurd (Exact.beq_number.2 rfl) (ne_true_of_eq_false hundo)
  | div => exact hrhs

/-- An operation is undone for its right operand with a number, where this does not divide by
zero. -/
theorem BinaryOp.isNumber_undoRight {op : BinaryOp} {rhs l : Expr (Exact K)}
    (hundo : op.undoable (l.eval source) = true) (hrhs : Exact.IsNumber (rhs.eval source))
    (hl : Exact.IsNumber (l.eval source)) : Exact.IsNumber ((op.undoRight rhs l).eval source) := by
  cases op with
  | add | mul | div => exact BinaryOp.isNumber_undoLeft hundo hrhs hl
  | sub => exact Exact.isNumber_neg.2 (Exact.isNumber_sub.2 ⟨hrhs, hl⟩)

/-- A number that is not negative has roots, of which one is chosen. -/
theorem Expr.isNumber_nearerRoot [TotalRoot K] [LawfulRoot K] {rhs : Expr (Exact K)}
    (hnonneg : 0 ≤ rhs.eval source) : Exact.IsNumber ((nearerRoot source e rhs).eval source) := by
  obtain ⟨y, hy⟩ : Exact.IsNumber (rhs.eval source) := by
    cases hvalue : rhs.eval source with
    | number y => exact ⟨y, rfl⟩
    | undefined =>
      rw [hvalue] at hnonneg
      cases hnonneg
  rw [hy] at hnonneg
  obtain ⟨z, hz⟩ := TotalRoot.exists_sqrt (x := y) hnonneg
  have hroot : rhs.sqrt.eval source = .number z :=
    Exact.sqrt_eq_number.2 ⟨y, hy, LawfulRoot.sqrt_eq_some.1 hz⟩
  unfold nearerRoot
  simp only
  split
  · exact ⟨-z, Exact.neg_eq_number.2 ⟨z, hroot, rfl⟩⟩
  · exact ⟨z, hroot⟩

/-- What the parameter equals has a value, if both sides can have one. -/
theorem Expr.isNumber_isolateFrom [TotalRoot K] [LawfulRoot K] (hcan : lhs.canIsolate h = true)
    (hlhs : Exact.IsNumber (lhs.eval (source.withValue h a))) :
    ∀ {rhs found : Expr (Exact K)}, lhs.isolateFrom source h rhs = .ok found →
      lhs.undoable source h rhs = true → Exact.IsNumber (rhs.eval source) →
      Exact.IsNumber (found.eval source) := by
  induction lhs, hcan using Expr.induction_canIsolate with
  | param _ | slot _ _ =>
    intro rhs found hfound _ hrhs
    rw [isolateFrom, if_pos rfl] at hfound
    cases hfound
    exact hrhs
  | sqrt e _ _ ih =>
    intro rhs found hfound hundo hrhs
    obtain ⟨_, hundo⟩ := Bool.and_eq_true_iff.1 hundo
    obtain ⟨_, hx⟩ := hlhs
    exact @ih (UnaryOp.apply_eq_number hx) rhs.square found hfound hundo
      (Exact.isNumber_mul.2 ⟨hrhs, hrhs⟩)
  | square e _ _ ih =>
    intro rhs found hfound hundo _
    obtain ⟨hnonneg, hundo⟩ := Bool.and_eq_true_iff.1 hundo
    obtain ⟨_, hx⟩ := hlhs
    exact ih (UnaryOp.apply_eq_number hx) hfound hundo
      (isNumber_nearerRoot (of_decide_eq_true hnonneg))
  | left op l r _ _ hop hl hr ih =>
    intro rhs found hfound hundo hrhs
    obtain ⟨_, hx⟩ := hlhs
    obtain ⟨hlx, hrx⟩ := BinaryOp.apply_eq_number hx
    rw [eval_withValue hr] at hrx
    rw [isolateFrom_left hop hl] at hfound
    rw [undoable, if_pos hl, Bool.and_eq_true_iff] at hundo
    exact ih hlx hfound hundo.2 (BinaryOp.isNumber_undoLeft hundo.1 hrhs hrx)
  | right op l r _ _ hop hl hr ih =>
    intro rhs found hfound hundo hrhs
    obtain ⟨_, hx⟩ := hlhs
    obtain ⟨hlx, hrx⟩ := BinaryOp.apply_eq_number hx
    rw [eval_withValue hl] at hlx
    rw [isolateFrom_right hop hl hr] at hfound
    rw [undoable, if_neg (ne_true_of_eq_false hl), Bool.and_eq_true_iff] at hundo
    exact ih hrx hfound hundo.2 (BinaryOp.isNumber_undoRight hundo.1 hrhs hlx)

/-! ## The equation -/

/-- Isolation is sound. If everything on the way down to the parameter can be undone, then with the
value of what is found for the parameter the equation holds. There is such a value, over numbers
that have the roots of all that is not negative, unless the equation has no value whatever the
parameter is. -/
theorem Expr.isolate_solves [LawfulRoot K] (hcan : e.canIsolate h = true)
    (hundo : e.undoable source h (.const 0) = true) :
    ∃ found, e.isolate source h = .ok found ∧
      (∀ v : K, found.eval source = .number v →
        e.eval (source.withValue h (.number v)) = .number 0) ∧
      (TotalRoot K → (∃ a, Exact.IsNumber (e.eval (source.withValue h a))) →
        ∃ v : K, found.eval source = .number v) := by
  obtain ⟨found, hfound, _⟩ := dependsOn_isolateFrom source hcan (.const 0)
  refine ⟨found, hfound, fun v hv => ?_, fun _ ⟨_, ha⟩ => ?_⟩
  · obtain ⟨y, hy, he⟩ := eval_withValue_of_isolateFrom hcan hfound hundo hv
    obtain rfl : 0 = y := Exact.number.inj hy
    exact he
  · exact isNumber_isolateFrom hcan ha hfound hundo Exact.isNumber_zero

/-- Twice the length of a side, less ten: a parameter of it behind a product, a square root and a
square. -/
def hypotenuse : Expr (Exact ℚ) :=
  let side : Expr (Exact ℚ) := .param ⟨1⟩ - .slot ⟨2⟩ 0
  .const (.number 2) * (side.square + .param ⟨3⟩).sqrt - .const (.number 10)

/-- The values at which the side is solved. -/
def besideHypotenuse : Lookup (Exact ℚ) where
  value h := if h = ⟨1⟩ then .number (-1) else .number 9
  slot _ _ := .number 2

/-- The root on the side of the present value is found, and the equation holds there. -/
theorem isolate_hypotenuse : hypotenuse.canIsolate ⟨1⟩ = true ∧
    hypotenuse.undoable besideHypotenuse ⟨1⟩ (.const 0) = true ∧
    ∃ found, hypotenuse.isolate besideHypotenuse ⟨1⟩ = .ok found ∧
      found.eval besideHypotenuse = .number (-2) ∧
      hypotenuse.eval (besideHypotenuse.withValue ⟨1⟩ (.number (-2))) = .number 0 := by
  have hcan : hypotenuse.canIsolate ⟨1⟩ = true := by decide
  have hundo : hypotenuse.undoable besideHypotenuse ⟨1⟩ (.const 0) = true := by decide +kernel
  have hvalue : ((hypotenuse.isolate besideHypotenuse ⟨1⟩).toOption.map
      (·.eval besideHypotenuse)) = some (.number (-2)) := by decide +kernel
  obtain ⟨found, hfound, hsolves, _⟩ := Expr.isolate_solves hcan hundo
  rw [hfound] at hvalue
  have hv : found.eval besideHypotenuse = .number (-2) := Option.some.inj hvalue
  exact ⟨hcan, hundo, found, hfound, hv, hsolves (-2) hv⟩

/-! ## At a point that solves the equation -/

/-- Every root that is taken has the value that its base has, and what is found for the parameter
comes from the two being equal. -/
theorem Expr.eval_rootsTaken [IsStrictOrderedRing K] [LawfulRoot K]
    (hcan : lhs.canIsolate h = true) :
    ∀ {rhs found : Expr (Exact K)} {y : K}, lhs.isolateFrom source h rhs = .ok found →
      lhs.eval source = .number y → rhs.eval source = .number y →
      lhs.nonzeroFactors source h = true → ∀ taken ∈ lhs.rootsTaken source h rhs,
        taken.1.isolateFrom source h taken.2 = .ok found ∧
          taken.2.eval source = taken.1.eval source := by
  induction lhs, hcan using Expr.induction_canIsolate with
  | param _ | slot _ _ => exact fun _ _ _ _ => nofun
  | sqrt e _ _ ih =>
    intro rhs found y hfound hlhs hrhs hfactors
    obtain ⟨x, hx, _, hxy⟩ := Exact.sqrt_eq_number.1 hlhs
    exact @ih rhs.square found (y * y) hfound (hx.trans (congrArg _ hxy.symm))
      (Exact.mul_eq_number.2 ⟨y, y, hrhs, hrhs, rfl⟩) hfactors
  | square e _ _ ih =>
    intro rhs found y hfound hlhs hrhs hfactors
    obtain ⟨x, x', hx, hx', hxy⟩ := Exact.mul_eq_number.1 hlhs
    obtain rfl : x = x' := Exact.number.inj (hx.symm.trans hx')
    have hroot : (nearerRoot source e rhs).eval source = .number x :=
      eval_nearerRoot_present hx (by rw [hxy, hrhs])
    intro taken htaken
    rcases List.mem_cons.1 htaken with rfl | htaken
    · exact ⟨hfound, hroot.trans hx.symm⟩
    · exact ih hfound hx hroot hfactors taken htaken
  | left op l r _ _ hop hl hr ih =>
    intro rhs found y hfound hlhs hrhs hfactors
    rw [isolateFrom_left hop hl] at hfound
    rw [nonzeroFactors, if_pos hl, Bool.and_eq_true_iff] at hfactors
    obtain ⟨⟨x, hx⟩, _⟩ := BinaryOp.apply_eq_number hlhs
    have hback := BinaryOp.eval_undoLeft_present hop hrhs hlhs
    rw [if_pos hfactors.1, hx] at hback
    rw [rootsTaken, if_pos hl]
    exact ih hfound hx hback hfactors.2
  | right op l r _ _ hop hl hr ih =>
    intro rhs found y hfound hlhs hrhs hfactors
    rw [isolateFrom_right hop hl hr] at hfound
    rw [nonzeroFactors, if_neg (ne_true_of_eq_false hl), Bool.and_eq_true_iff] at hfactors
    obtain ⟨_, x, hx⟩ := BinaryOp.apply_eq_number hlhs
    have hback := BinaryOp.eval_undoRight_present hop hrhs hlhs
    rw [if_pos hfactors.1, hx] at hback
    rw [rootsTaken, if_neg (ne_true_of_eq_false hl)]
    exact ih hfound hx hback hfactors.2

/-- Isolation keeps a point that solves the equation already. If no factor that is divided by is
zero there, then what is found for the parameter has the value that the parameter has, and every
square on the way down is undone with the root that its base is. That the equation has a value says
of the square roots on the way down that what they are taken of is not negative. -/
theorem Expr.isolate_keeps [IsStrictOrderedRing K] [LawfulRoot K] (hcan : e.canIsolate h = true)
    (hholds : e.eval source = .number 0) (hfactors : e.nonzeroFactors source h = true) :
    ∃ found, e.isolate source h = .ok found ∧
      found.eval source = e.presentValue source h ∧
      ((∀ i, source.slot i h = source.value h) → found.eval source = source.value h) ∧
      ∀ taken ∈ e.rootsTaken source h (.const 0),
        taken.1.isolateFrom source h taken.2 = .ok found ∧
          taken.2.eval source = taken.1.eval source := by
  obtain ⟨found, hfound, _⟩ := dependsOn_isolateFrom source hcan (.const 0)
  have hpresent : found.eval source = e.presentValue source h := by
    rw [eval_isolateFrom_of_holds hcan hfound hholds rfl, if_pos hfactors]
  exact ⟨found, hfound, hpresent,
    fun hslot => hpresent.trans (presentValue_eq hslot (dependsOn_of_canIsolate hcan)),
    eval_rootsTaken hcan hfound hholds rfl hfactors⟩

/-- The side is found where it is, at the negative one of the two roots. -/
theorem isolate_rightAngle :
    let source := besideHypotenuse.withValue ⟨1⟩ (.number (-2))
    hypotenuse.canIsolate ⟨1⟩ = true ∧ hypotenuse.eval source = .number 0 ∧
      hypotenuse.nonzeroFactors source ⟨1⟩ = true ∧
      ∃ found, hypotenuse.isolate source ⟨1⟩ = .ok found ∧ found.eval source = .number (-2) ∧
        (hypotenuse.rootsTaken source ⟨1⟩ (.const 0)).map (·.2.eval source) = [.number (-4)] := by
  intro source
  have hcan : hypotenuse.canIsolate ⟨1⟩ = true := by decide
  have hholds : hypotenuse.eval source = .number 0 := by decide +kernel
  have hfactors : hypotenuse.nonzeroFactors source ⟨1⟩ = true := by decide +kernel
  have hbases : (hypotenuse.rootsTaken source ⟨1⟩ (.const 0)).map (·.1.eval source) =
      [.number (-4)] := by decide +kernel
  obtain ⟨found, hfound, hpresent, _, hroots⟩ := Expr.isolate_keeps hcan hholds hfactors
  refine ⟨hcan, hholds, hfactors, found, hfound, hpresent, ?_⟩
  rw [← hbases]
  exact List.map_congr_left fun taken htaken => (hroots taken htaken).2

end

end SketchSolver
