import SketchSolver.Proofs.Arithmetic.BasicSolution
import SketchSolver.Proofs.EquationSystem.Step

/-!
# The step of least weighted motion

Let `B` be the Jacobian with its columns weighed (`weighColumns`). The range of `B Bᵀ` is that of
`B` (`exists_mul_transpose_mulVec`), so the normal equations of a linearized system that has a
solution have one too, redundant rows or not, and a basic one. It need not be the only one, but all
of them combine the rows to the same step: a combination of rows is orthogonal to what the rows send
to zero, so it is shorter than any other vector that they send to the same (`sum_sq_lt`). Hence a
step solves the linearized system with least weighted motion (`solveLeastSquares_correct`).
-/

namespace SketchSolver

open Matrix
open Exact (IsNumber)

/-! ## Weighed columns -/

section
variable [Field K] {m n : Nat} {J : Matrix (Fin m) (Fin n) K} {scale : Fin n → K}

/-- The matrix with its columns weighed. -/
def weighColumns (J : Matrix (Fin m) (Fin n) K) (scale : Fin n → K) : Matrix (Fin m) (Fin n) K :=
  J * diagonal scale

/-- The matrix of the normal equations. -/
def normalMatrix (J : Matrix (Fin m) (Fin n) K) (scale : Fin n → K) : Matrix (Fin m) (Fin m) K :=
  weighColumns J scale * (weighColumns J scale)ᵀ

/-- An entry of a weighed column is that of the matrix times the weight. -/
theorem weighColumns_apply (i : Fin m) (j : Fin n) :
    weighColumns J scale i j = J i j * scale j :=
  mul_diagonal ..

/-- The normal equations combine the rows, weighed, and take the products with them. -/
theorem normalMatrix_mulVec (z : Fin m → K) :
    normalMatrix J scale *ᵥ z = weighColumns J scale *ᵥ ((weighColumns J scale)ᵀ *ᵥ z) :=
  (mulVec_mulVec ..).symm

/-- Weights of the columns make up for those of the unknowns. -/
theorem weighColumns_mulVec_div (hscale : ∀ j, scale j ≠ 0) (x : Fin n → K) :
    (weighColumns J scale *ᵥ fun j => x j / scale j) = J *ᵥ x := by
  rw [weighColumns, ← mulVec_mulVec]
  refine congrArg (J *ᵥ ·) (funext fun j => ?_)
  rw [mulVec_diagonal, mul_div_cancel₀ _ (hscale j)]

end

/-! ## Solutions of least length -/

section
variable [Field K] [LinearOrder K] [IsStrictOrderedRing K] {m n : Nat}

/-- The normal equations have a solution. -/
theorem exists_mul_transpose_mulVec (B : Matrix (Fin m) (Fin n) K) (x : Fin n → K) :
    ∃ z, B *ᵥ (Bᵀ *ᵥ z) = B *ᵥ x := by
  have hle : LinearMap.range (B * Bᵀ).mulVecLin ≤ LinearMap.range B.mulVecLin := by
    rw [mulVecLin_mul]
    exact LinearMap.range_comp_le_range _ _
  have hrange := Submodule.eq_of_le_of_finrank_eq hle B.rank_self_mul_transpose
  have hmem : B *ᵥ x ∈ LinearMap.range B.mulVecLin := ⟨x, rfl⟩
  rw [← hrange] at hmem
  obtain ⟨z, hz⟩ := hmem
  exact ⟨z, (mulVec_mulVec ..).trans hz⟩

/-- A combination of rows is shorter than any other vector that the rows send to the same. -/
theorem sum_sq_lt {B : Matrix (Fin m) (Fin n) K} {z : Fin m → K} {y : Fin n → K}
    (hy : B *ᵥ y = B *ᵥ (Bᵀ *ᵥ z)) (hne : y ≠ Bᵀ *ᵥ z) :
    ∑ j, (Bᵀ *ᵥ z) j ^ 2 < ∑ j, y j ^ 2 := by
  set x := Bᵀ *ᵥ z with hx
  have horthogonal : x ⬝ᵥ (y - x) = 0 := by
    rw [hx, mulVec_transpose, ← dotProduct_mulVec, mulVec_sub, hy, ← mulVec_transpose, ← hx,
      sub_self, dotProduct_zero]
  have hpos : 0 < ∑ j, (y j - x j) ^ 2 := by
    obtain ⟨j, hj⟩ := Function.ne_iff.1 hne
    exact Finset.sum_pos' (fun _ _ => sq_nonneg _)
      ⟨j, Finset.mem_univ j, sq_pos_of_ne_zero (sub_ne_zero.2 hj)⟩
  have hsum : ∑ j, y j ^ 2 = ∑ j, x j ^ 2 + 2 * x ⬝ᵥ (y - x) + ∑ j, (y j - x j) ^ 2 := by
    rw [dotProduct, Finset.mul_sum, ← Finset.sum_add_distrib, ← Finset.sum_add_distrib]
    refine Finset.sum_congr rfl fun j _ => ?_
    rw [Pi.sub_apply]
    ring
  rw [hsum, horthogonal, mul_zero, add_zero]
  exact lt_add_of_pos_right _ hpos

end

namespace EquationSystem

section
variable [Field K] [LinearOrder K] [PartialFunctions K] {s : EquationSystem (Exact K)} {m n : Nat}
  {J : Matrix (Fin m) (Fin n) K} {F : Fin m → K} {scale : Fin n → K}

/-! ## The normal equations -/

/-- The system has been linearized with the given Jacobian and residuals. -/
structure HasLinearization (s : EquationSystem (Exact K)) (J : Matrix (Fin m) (Fin n) K)
    (F : Fin m → K) : Prop where
  rows : s.linearization.rows.length = m
  columns : s.linearization.columns.length = n
  inside : ∀ t ∈ s.linearization.jacobian.triplets, t.row < m ∧ t.column < n
  entry : ∀ (i : Fin m) (j : Fin n), s.linearization.jacobian.entry i j = .number (J i j)
  residuals : s.linearization.residuals = numbers (List.ofFn F)

/-- The weight of a dragged unknown is the given one, and that of any other is one. -/
theorem weights_weigh {c : K} (hlength : s.linearization.columns.length = n)
    (hcolumns : ∀ j : Fin n, ∃ i p, s.linearization.columns[(j : Nat)]? = some i ∧
      s.params[i]? = some p ∧ scale j = if s.isDragged p.handle then c else 1)
    (hdragged : s.settings.draggedColumnScale = .number c) :
    s.weigh.linearization.weights = numbers (List.ofFn scale) := by
  refine List.ext_getElem (by simp [EquationSystem.weigh, numbers, hlength]) fun j hj hj' => ?_
  have hj : j < n := by simpa [numbers] using hj'
  obtain ⟨i, p, hi, hp, hscale⟩ := hcolumns ⟨j, hj⟩
  obtain ⟨_, rfl⟩ := List.getElem?_eq_some_iff.1 hi
  simp only [EquationSystem.weigh, numbers, List.getElem_map, List.getElem_ofFn, hp, hscale,
    hdragged]
  split <;> rfl

/-- Weighing the columns keeps what is linearized. -/
theorem HasLinearization.weigh (h : s.HasLinearization J F) : s.weigh.HasLinearization J F :=
  ⟨h.rows, h.columns, h.inside, h.entry, h.residuals⟩

/-- The Jacobian of a linearization over the field consists of numbers. -/
theorem HasLinearization.isNumeric (h : s.HasLinearization J F) :
    s.linearization.jacobian.IsNumeric :=
  SparseMatrix.isNumeric_of_entry h.inside fun i hi j hj => ⟨_, h.entry ⟨i, hi⟩ ⟨j, hj⟩⟩

/-- A coordinate of a step is the product of a column with the coefficients of the rows, weighed
again. -/
theorem stepEntry_eq {column : List (Nat × Exact K)} (hcolumn : ∀ e ∈ column, IsNumber e.2)
    (hlt : ∀ e ∈ column, e.1 < m) (z : Fin m → K) (w : K) :
    column.foldl (fun x (i, v) => x + v * (numbers (List.ofFn z)).getD i 0 * .number w)
      (0 : Exact K) =
      .number ((∑ i : Fin m, (SparseMatrix.lineEntry column i).toNumber * z i) * w) := by
  have hfold : column.foldl
      (fun x (i, v) => x + v * (numbers (List.ofFn z)).getD i 0 * .number w) (0 : Exact K) =
      .number (column.map fun e => e.2.toNumber * ((List.ofFn z).getD e.1 0 * w)).sum := by
    clear hlt
    induction column using List.reverseRecOn with
    | nil => rfl
    | append_singleton column e ih =>
      obtain ⟨hcolumn, he⟩ := List.forall_mem_append.1 hcolumn
      obtain ⟨x, hx⟩ := he e (List.mem_singleton_self e)
      rw [List.foldl_append, ih hcolumn, List.map_append, List.sum_append, List.map_singleton,
        List.sum_singleton, hx, ← mul_assoc]
      simp only [List.foldl_cons, List.foldl_nil, hx, getD_numbers]
      rfl
  rw [hfold, SparseMatrix.sum_line hcolumn hlt fun i => (List.ofFn z).getD i 0 * w, Finset.sum_mul]
  refine congrArg Exact.number (Finset.sum_congr rfl fun i _ => ?_)
  rw [List.getD_eq_getElem _ _ (List.length_ofFn.symm ▸ i.2), List.getElem_ofFn, mul_assoc]

section
variable (hweights : s.linearization.weights = numbers (List.ofFn scale))
include hweights

/-- The entries of the weighed Jacobian. -/
theorem HasLinearization.entry_weighedJacobian (h : s.HasLinearization J F) (i : Fin m)
    (j : Fin n) : s.weighedJacobian.entry i j = .number (weighColumns J scale i j) := by
  have hweight : ∀ k, s.linearization.weights.getD k 1 = .number ((List.ofFn scale).getD k 1) := by
    intro k
    rw [hweights]
    exact List.getD_map _ 1 Exact.number
  rw [weighedJacobian]
  simp only [hweight]
  rw [h.isNumeric.entry_ofTriplets_mul (fun k => (List.ofFn scale).getD k 1) i
    (h.columns.symm ▸ j.2), h.entry, weighColumns_apply,
    List.getD_eq_getElem _ _ (List.length_ofFn.symm ▸ j.2), List.getElem_ofFn]
  rfl

/-- The weighed Jacobian consists of numbers as well. -/
theorem HasLinearization.isNumeric_weighedJacobian (h : s.HasLinearization J F) :
    s.weighedJacobian.IsNumeric := by
  have hw : s.WeighsByNumbers :=
    ⟨hweights ▸ numbers_numbers _, by rw [hweights, h.columns, numbers, List.length_map,
      List.length_ofFn]⟩
  exact (hw.isNumeric_weighedJacobian fun t ht => h.columns.symm ▸ (h.inside t ht).2).2 h.isNumeric

/-- The normal matrix. -/
theorem HasLinearization.entry_timesTranspose (h : s.HasLinearization J F) (i j : Fin m) :
    s.weighedJacobian.timesTranspose.entry i j =
      .number (normalMatrix J scale i j) := by
  have hheight : ∀ i : Fin m, (i : Nat) < s.weighedJacobian.height := fun i => h.rows.symm ▸ i.2
  rw [(h.isNumeric_weighedJacobian hweights).entry_timesTranspose
    (SparseMatrix.storesColumns_ofTriplets ..) (hheight i) (hheight j), normalMatrix, mul_apply]
  obtain rfl := h.columns
  refine congrArg Exact.number (Finset.sum_congr rfl fun c _ => ?_)
  have hentry : ∀ i : Fin m, (s.weighedJacobian.entry i c).toNumber = weighColumns J scale i c :=
    fun i => congrArg Exact.toNumber (h.entry_weighedJacobian hweights i c)
  rw [hentry, hentry]
  rfl

/-- What a step makes of the coefficients of the rows. -/
theorem HasLinearization.combineRows_eq (h : s.HasLinearization J F) (z : Fin m → K) :
    s.combineRows (numbers (List.ofFn z)) =
      numbers (List.ofFn fun j => ((weighColumns J scale)ᵀ *ᵥ z) j * scale j) := by
  have hnumeric := h.isNumeric_weighedJacobian hweights
  refine List.ext_getElem ?_ fun j hj hj' => ?_
  · simp [combineRows, hweights, numbers, length_weighedJacobian, h.columns]
  have hj : j < n := by simpa [numbers] using hj'
  have hlength : j < s.weighedJacobian.lines.length := by rwa [length_weighedJacobian, h.columns]
  have hmem := List.getElem_mem hlength
  have hinside : ∀ e ∈ s.weighedJacobian.lines[j], e.1 < m := by
    intro e he
    obtain ⟨t, ht, hrow⟩ := SparseMatrix.exists_row_of_mem_ofTriplets hmem he
    obtain ⟨t', ht', rfl⟩ := List.mem_map.1 ht
    exact hrow ▸ (h.inside t' ht').1
  have hentry : ∀ i : Fin m, SparseMatrix.lineEntry s.weighedJacobian.lines[j] i =
      .number (weighColumns J scale i ⟨j, hj⟩) := by
    intro i
    rw [← h.entry_weighedJacobian hweights i ⟨j, hj⟩, SparseMatrix.entry,
      List.getD_eq_getElem _ _ hlength]
    rfl
  have hstep := stepEntry_eq (hnumeric _ hmem) hinside z (scale ⟨j, hj⟩)
  simp only [hentry, Exact.toNumber] at hstep
  have hlength' : j < s.linearization.weights.length := by simpa [hweights, numbers] using hj
  have hweight : s.linearization.weights[j] = .number (scale ⟨j, hj⟩) := by
    simp [hweights, numbers]
  simp only [combineRows, List.getElem_map, List.getElem_zip, hweight, numbers, List.getElem_ofFn]
  exact hstep

end

/-! ## The step -/

/-- A step that is found is written to the linearization, and nothing else is changed. -/
theorem solveLeastSquares_eq [Scalar α] {s : EquationSystem α} {step : List α}
    (hstep : s.weigh.leastSquaresStep = .ok step) : s.solveLeastSquares =
      (.ok (), { s.weigh with linearization := { s.weigh.linearization with step } }) := by
  unfold solveLeastSquares
  simp only [hstep]

/-- A step combines the rows with the basic solution of the normal equations. -/
theorem leastSquaresStep_withEpsilon (ε : Exact K)
    (hne : ¬ (s.linearization.rows.length = 0 ∨ s.linearization.columns.length = 0))
    {z : List (Exact K)} (hz : (PivotedQR.factorize s.weighedJacobian.timesTranspose).basicSolution
      (@PivotedQR.rank _ (Exact.withEpsilon ε)
        (PivotedQR.factorize s.weighedJacobian.timesTranspose)) s.linearization.residuals =
          some z) :
    @leastSquaresStep _ (Exact.withEpsilon ε) s = .ok (s.combineRows z) := by
  rw [← PivotedQR.solveBasic_withEpsilon, ← PivotedQR.factorize_withEpsilon ε] at hz
  rw [@leastSquaresStep_eq _ (Exact.withEpsilon ε), if_neg hne]
  split
  · next hnone => cases hz.symm.trans hnone
  · next z' hz' =>
    obtain rfl := Option.some.inj (hz.symm.trans hz')
    rfl

variable [IsStrictOrderedRing K] [LawfulRoot K] [TotalRoot K]

/-- The coefficients of the rows solve the normal equations. -/
theorem HasLinearization.exists_leastSquaresStep (ε : Exact K) (h : s.HasLinearization J F)
    (hweights : s.linearization.weights = numbers (List.ofFn scale)) (hscale : ∀ j, scale j ≠ 0)
    (hsolvable : ∃ x, J *ᵥ x = F)
    (hrank : @PivotedQR.rank _ (Exact.withEpsilon ε)
      (PivotedQR.factorize s.weighedJacobian.timesTranspose) = (normalMatrix J scale).rank) :
    ∃ z : Fin m → K, @leastSquaresStep _ (Exact.withEpsilon ε) s =
        .ok (numbers (List.ofFn fun j => ((weighColumns J scale)ᵀ *ᵥ z) j * scale j)) ∧
      weighColumns J scale *ᵥ ((weighColumns J scale)ᵀ *ᵥ z) = F := by
  obtain ⟨x, rfl⟩ := hsolvable
  obtain ⟨y, hy⟩ := exists_mul_transpose_mulVec (weighColumns J scale) fun j => x j / scale j
  rw [weighColumns_mulVec_div hscale, ← normalMatrix_mulVec] at hy
  by_cases hempty : s.linearization.rows.length = 0 ∨ s.linearization.columns.length = 0
  case pos =>
    refine ⟨0, ?_, ?_⟩
    · rw [@leastSquaresStep_eq _ (Exact.withEpsilon ε), if_pos hempty, h.columns]
      simp only [mulVec_zero, Pi.zero_apply, zero_mul, List.ofFn_const, numbers, List.map_replicate]
      rfl
    · rw [mulVec_zero, mulVec_zero]
      rcases hempty with hm | hn
      · obtain rfl : m = 0 := h.rows.symm.trans hm
        exact Subsingleton.elim _ _
      · obtain rfl : n = 0 := h.columns.symm.trans hn
        rw [Subsingleton.elim x 0, mulVec_zero]
  case neg =>
    have hentry := h.entry_timesTranspose hweights
    have hwidth : s.weighedJacobian.timesTranspose.width = m :=
      DenseMatrix.width_ofFn.trans h.rows
    obtain ⟨Q, σ, hfactors, hstair⟩ := PivotedQR.exists_staircase h.rows hwidth hentry
    rw [PivotedQR.rankAbove_zero h.rows hwidth hentry, ← hrank] at hstair
    obtain ⟨z, hz, _, hsolves⟩ := hfactors.exists_basicSolution hstair (J *ᵥ x)
    rw [← h.residuals] at hz
    refine ⟨z, ?_, by rw [← normalMatrix_mulVec, hsolves y hy]⟩
    rw [leastSquaresStep_withEpsilon ε hempty hz, h.combineRows_eq hweights]

/-- If the linearized system has a solution, and the numerical rank of the normal matrix is its
rank, then there is a step, which solves the system and moves less than every other solution, where
the move of a dragged unknown is divided by its scale. This holds whatever is taken for the distance
of adjacent numbers at one. -/
theorem solveLeastSquares_correct (ε : Exact K) {c : K} (h : s.HasLinearization J F)
    (hcolumns : ∀ j : Fin n, ∃ i p, s.linearization.columns[(j : Nat)]? = some i ∧
      s.params[i]? = some p ∧ scale j = if s.isDragged p.handle then c else 1)
    (hdragged : s.settings.draggedColumnScale = .number c) (hc : c ≠ 0)
    (hsolvable : ∃ x, J *ᵥ x = F)
    (hrank : @PivotedQR.rank _ (Exact.withEpsilon ε)
      (PivotedQR.factorize s.weigh.weighedJacobian.timesTranspose) =
        (normalMatrix J scale).rank) :
    ∃ x : Fin n → K, (@solveLeastSquares _ (Exact.withEpsilon ε) s).1 = .ok () ∧
      (@solveLeastSquares _ (Exact.withEpsilon ε) s).2.linearization.step =
        numbers (List.ofFn x) ∧
      J *ᵥ x = F ∧
      ∀ x', J *ᵥ x' = F → x' ≠ x → ∑ j, (x j / scale j) ^ 2 < ∑ j, (x' j / scale j) ^ 2 := by
  have hscale : ∀ j, scale j ≠ 0 := by
    intro j
    obtain ⟨_, _, _, _, hj⟩ := hcolumns j
    rw [hj]
    split
    · exact hc
    · exact one_ne_zero
  obtain ⟨z, hstep, hz⟩ := h.weigh.exists_leastSquaresStep ε
    (weights_weigh h.columns hcolumns hdragged) hscale hsolvable hrank
  have hsolve := @solveLeastSquares_eq _ (Exact.withEpsilon ε) s _ hstep
  refine ⟨fun j => ((weighColumns J scale)ᵀ *ᵥ z) j * scale j, by rw [hsolve], by rw [hsolve],
    ?solves, fun x' hx' hne => ?least⟩
  case solves =>
    rw [← weighColumns_mulVec_div hscale]
    simpa only [mul_div_cancel_right₀ _ (hscale _)] using hz
  case least =>
    simp only [mul_div_cancel_right₀ _ (hscale _)]
    refine sum_sq_lt ((weighColumns_mulVec_div hscale x').trans (hx'.trans hz.symm)) fun heq => ?_
    refine hne (funext fun j => ?_)
    rw [← congrFun heq j, div_mul_cancel₀ _ (hscale j)]

end

/-- Two rows that say the same of two unknowns, of which the second one is dragged. -/
noncomputable def redundantRows : EquationSystem (Exact ℝ) :=
  { empty realSettings with
    params := [{ handle := ⟨1⟩, value := .number 0 }, { handle := ⟨2⟩, value := .number 0 }]
    dragged := [⟨2⟩]
    linearization :=
      { Linearization.empty with
        columns := [0, 1]
        rows := [0, 1]
        jacobian := .ofTriplets 2 2
          [⟨0, 0, .number 1⟩, ⟨0, 1, .number 1⟩, ⟨1, 0, .number 1⟩, ⟨1, 1, .number 1⟩]
        residuals := [.number 401, .number 401] } }

/-- The system has the linearization of which the rows are the same. -/
theorem hasLinearization_redundantRows :
    redundantRows.HasLinearization (!![1, 1; 1, 1] : Matrix (Fin 2) (Fin 2) ℝ) ![401, 401] where
  rows := rfl
  columns := rfl
  inside := by
    have htriplets : redundantRows.linearization.jacobian.triplets =
        [⟨0, 0, .number 1⟩, ⟨1, 0, .number 1⟩, ⟨0, 1, .number 1⟩, ⟨1, 1, .number 1⟩] := rfl
    simp [htriplets]
  entry i j := by fin_cases i <;> fin_cases j <;> exact congrArg Exact.number (zero_add 1)
  residuals := rfl

/-- The dragged unknown moves the less, and by as much as the other one lets it. -/
theorem solveLeastSquares_redundantRows : redundantRows.solveLeastSquares.1 = .ok () ∧
    redundantRows.solveLeastSquares.2.linearization.step = [.number 400, .number 1] := by
  have h := hasLinearization_redundantRows
  have hcolumns : ∀ j : Fin 2, ∃ i p, redundantRows.linearization.columns[(j : Nat)]? = some i ∧
      redundantRows.params[i]? = some p ∧
      (![1, 1 / 20] : Fin 2 → ℝ) j = if redundantRows.isDragged p.handle then 1 / 20 else 1 := by
    intro j
    fin_cases j
    · exact ⟨0, _, rfl, rfl, rfl⟩
    · exact ⟨1, _, rfl, rfl, rfl⟩
  have hweights := weights_weigh h.columns hcolumns rfl
  have hsolution : !![1, 1; 1, 1] *ᵥ (![400, 1] : Fin 2 → ℝ) = ![401, 401] := by
    funext i
    fin_cases i <;> norm_num [mulVec, dotProduct, Fin.sum_univ_two]
  obtain ⟨x, hok, hstep, hsolves, hleast⟩ := solveLeastSquares_correct 0 h hcolumns rfl
    (by norm_num) ⟨_, hsolution⟩
    (PivotedQR.isExactRank_factorize 2 2 _ _ rfl rfl (h.weigh.entry_timesTranspose hweights))
  have hx : x = ![400, 1] := by
    by_contra hne
    have hless := hleast _ hsolution (Ne.symm hne)
    have hsum := congrFun hsolves 0
    simp only [mulVec, dotProduct, Fin.sum_univ_two, of_apply, cons_val_zero, cons_val_one,
      one_mul] at hless hsum
    have hfirst : x 0 = 401 - x 1 := eq_sub_of_add_eq hsum
    rw [hfirst] at hless
    nlinarith only [hless, sq_nonneg (x 1 - 1)]
  rw [hx] at hstep
  exact ⟨hok, hstep⟩

end EquationSystem

end SketchSolver
