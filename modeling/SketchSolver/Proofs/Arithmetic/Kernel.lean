import SketchSolver.Proofs.Arithmetic.Pivots
import SketchSolver.Proofs.Arithmetic.Reduction

/-!
# Kernels by factorization

The factorization of a transposed matrix tells which entries a vector can have that the matrix maps
to zero, if the rows of the matrix are independent. Then the triangular factor is a staircase that
is as high as there are rows, so the first columns of the orthogonal factor span the rows, and the
other ones the kernel (`PivotedQR.Factors.exists_kernel_iff`). The part of a unit vector that lies
in the span of the rows has the length one just if every vector of the kernel has a zero in its
place (`PivotedQR.Factors.zero_lt_iff`).

A vector of the kernel with an entry in some place expresses a column by the other ones, so without
that column the rank stays as it is (`rank_dropColumn_eq_iff`).
-/

namespace SketchSolver

open Matrix

variable [Field K]

section
variable {n m : Nat} {Z : Fin m → Fin n → K}

/-- If the right side of a triangular system is zero, its solution begins with zeros. -/
theorem eq_zero_of_triangular (htriangular : ∀ (i : Fin n) (k : Fin m), (k : Nat) < i → Z k i = 0)
    (hdiagonal : ∀ (i : Fin n) (k : Fin m), (k : Nat) = i → Z k i ≠ 0) {y : Fin n → K}
    (hy : ∀ k : Fin m, Z k ⬝ᵥ y = 0) (i : Fin n) (hi : (i : Nat) < m) : y i = 0 := by
  induction i using WellFoundedLT.induction with
  | ind i ih =>
    have hrow := hy ⟨i, hi⟩
    rw [dotProduct, Finset.sum_eq_single_of_mem i (Finset.mem_univ i)] at hrow
    · exact (mul_eq_zero.1 hrow).resolve_left (hdiagonal i _ rfl)
    · intro j _ hne
      rcases lt_or_gt_of_ne hne with hlt | hgt
      · rw [ih j hlt (lt_trans hlt hi), mul_zero]
      · rw [htriangular j _ hgt, zero_mul]

end

/-! ## Dropped columns -/

section
variable {m n : Nat} {J : Matrix (Fin m) (Fin n) K} {j : Fin n}

/-- The matrix without one of its columns. -/
def dropColumn (J : Matrix (Fin m) (Fin n) K) (j : Fin n) : Matrix (Fin m) {k // k ≠ j} K :=
  J.submatrix id Subtype.val

/-- A vector with a zero in the place of a column is mapped as without the column. -/
theorem dropColumn_mulVec {x : Fin n → K} (hx : x j = 0) :
    (dropColumn J j *ᵥ fun k => x k) = J *ᵥ x := by
  funext i
  refine Eq.symm ((Fintype.sum_eq_add_sum_subtype_ne (fun k => J i k * x k) j).trans ?_)
  rw [hx, mul_zero, zero_add]
  rfl

/-- Without a column the rank is not larger. -/
theorem rank_dropColumn_le : (dropColumn J j).rank ≤ J.rank :=
  J.rank_submatrix_le _ _

/-- What the other columns span. -/
theorem mem_range_dropColumn {v : Fin m → K} :
    v ∈ LinearMap.range (dropColumn J j).mulVecLin ↔ ∃ x, x j = 0 ∧ J *ᵥ x = v := by
  constructor
  · rintro ⟨y, rfl⟩
    let x : Fin n → K := fun k => if hk : k ≠ j then y ⟨k, hk⟩ else 0
    have hzero : x j = 0 := dif_neg (not_not.2 rfl)
    have hrest : (fun k : {k // k ≠ j} => x k) = y := funext fun k => dif_pos k.2
    exact ⟨x, hzero, by rw [← dropColumn_mulVec hzero, hrest, mulVecLin_apply]⟩
  · rintro ⟨x, hzero, rfl⟩
    exact ⟨_, dropColumn_mulVec hzero⟩

/-- The rank stays as it is without a column if the column depends on the other ones. -/
theorem rank_dropColumn_eq_iff :
    (dropColumn J j).rank = J.rank ↔ ∃ u, J *ᵥ u = 0 ∧ u j ≠ 0 := by
  have hle : LinearMap.range (dropColumn J j).mulVecLin ≤ LinearMap.range J.mulVecLin := by
    intro v hv
    obtain ⟨x, _, rfl⟩ := mem_range_dropColumn.1 hv
    exact ⟨x, rfl⟩
  constructor
  · intro hrank
    have hrange := Submodule.eq_of_le_of_finrank_eq hle hrank
    have hcolumn : J *ᵥ Pi.single j 1 ∈ LinearMap.range J.mulVecLin := ⟨_, rfl⟩
    obtain ⟨x, hzero, hx⟩ := mem_range_dropColumn.1 (hrange ▸ hcolumn)
    refine ⟨Pi.single j 1 - x, by rw [mulVec_sub, hx, sub_self], ?_⟩
    rw [Pi.sub_apply, hzero, Pi.single_eq_same, sub_zero]
    exact one_ne_zero
  · rintro ⟨u, hu, hne⟩
    have hge : LinearMap.range J.mulVecLin ≤ LinearMap.range (dropColumn J j).mulVecLin := by
      rintro _ ⟨x, rfl⟩
      refine mem_range_dropColumn.2 ⟨x - (x j / u j) • u, ?_, ?_⟩
      · rw [Pi.sub_apply, Pi.smul_apply, smul_eq_mul, div_mul_cancel₀ _ hne, sub_self]
      · rw [mulVec_sub, mulVec_smul, hu, smul_zero, sub_zero, mulVecLin_apply]
    rw [rank, rank, le_antisymm hle hge]

end

/-! ## Factors -/

variable [LinearOrder K] [PartialFunctions K]

namespace PivotedQR.Factors

variable {n m : Nat} {qr : PivotedQR (Exact K)} {J : Matrix (Fin m) (Fin n) K}
  {Q : Matrix (Fin n) (Fin n) K} {σ : Equiv.Perm (Fin m)}

/-- The factor of a row ends with zeros. -/
theorem eq_zero_of_lt (h : qr.Factors Jᵀ Q σ) {i : Fin n} {k : Fin m} (hki : (k : Nat) < i) :
    (Qᵀ *ᵥ J (σ k)) i = 0 :=
  h.triangular i k hki

/-- The rows of a matrix map as those of the triangular factor map what the orthogonal one
leaves. -/
theorem dotProduct_eq (h : qr.Factors Jᵀ Q σ) (k : Fin m) (u : Fin n → K) :
    (Qᵀ *ᵥ J (σ k)) ⬝ᵥ (Qᵀ *ᵥ u) = (J *ᵥ u) (σ k) := by
  rw [mulVec_transpose, ← dotProduct_mulVec, mulVec_mulVec, h.orthogonal, one_mulVec]
  rfl

/-- If the rows are independent, the kernel is spanned by the columns of the orthogonal factor that
are behind those of the rows. -/
theorem exists_kernel_iff (h : qr.Factors Jᵀ Q σ)
    (hstair : Staircase (triangularFactor Q Jᵀ σ) m) (j : Fin n) :
    (∃ u, J *ᵥ u = 0 ∧ u j ≠ 0) ↔ ∃ i : Fin n, m ≤ i ∧ Q j i ≠ 0 := by
  constructor
  · rintro ⟨u, hu, hne⟩
    by_contra hnone
    simp only [not_exists, not_and, not_not] at hnone
    have hfirst := eq_zero_of_triangular (Z := fun k => Qᵀ *ᵥ J (σ k))
      (fun _ _ => h.eq_zero_of_lt) (fun i k hki => hstair.diagonal i k hki k.2) (y := Qᵀ *ᵥ u)
      fun k => by
        rw [h.dotProduct_eq, hu]
        rfl
    refine hne ?_
    rw [← h.mulVec_transpose_mulVec u, mulVec, dotProduct]
    refine Finset.sum_eq_zero fun i _ => ?_
    rcases Nat.lt_or_ge i m with hi | hi
    · rw [hfirst i hi, mul_zero]
    · rw [hnone i hi, zero_mul]
  · rintro ⟨i, hi, hne⟩
    refine ⟨Q *ᵥ Pi.single i 1, funext fun k => ?_, ?_⟩
    · obtain ⟨k, rfl⟩ := σ.surjective k
      rw [← h.dotProduct_eq, mulVec_mulVec, mul_eq_one_comm.1 h.orthogonal, one_mulVec,
        dotProduct_single_one]
      exact h.eq_zero_of_lt (k.2.trans_le hi)
    · rw [mulVec_single_one]
      exact hne

/-- The part of a unit vector that is in the span of the rows is shorter than the vector if the
kernel has a vector with an entry in its place. -/
theorem zero_lt_iff [IsStrictOrderedRing K] (h : qr.Factors Jᵀ Q σ)
    (hstair : Staircase (triangularFactor Q Jᵀ σ) m) (j : Fin n) :
    (0 : Exact K) < 1 - qr.rangeNorm2 (numbers (List.ofFn (Pi.single j 1))) m ↔
      ∃ u, J *ᵥ u = 0 ∧ u j ≠ 0 := by
  have himage : Qᵀ *ᵥ Pi.single j 1 = Q j := mulVec_single_one Qᵀ j
  have hone : dot (List.ofFn (Q j)) (List.ofFn (Q j)) = 1 := by
    rw [dot_ofFn]
    have hjj := congrFun (congrFun h.orthogonal j) j
    rwa [mul_apply', one_apply_eq] at hjj
  have hsplit := dot_take_add_dot_drop m (List.ofFn (Q j)) (List.ofFn (Q j))
  have hrest : (1 : Exact K) - qr.rangeNorm2 (numbers (List.ofFn (Pi.single j 1))) m =
      .number (dot ((List.ofFn (Q j)).drop m) ((List.ofFn (Q j)).drop m)) := by
    have htake : (numbers (List.ofFn (Q j))).take m = numbers ((List.ofFn (Q j)).take m) :=
      List.map_take.symm
    rw [rangeNorm2, h.transposeTimes, himage, htake, squaredNorm_numbers]
    exact congrArg Exact.number (by linear_combination -hsplit - hone)
  have hpos : (0 : Exact K) <
      .number (dot ((List.ofFn (Q j)).drop m) ((List.ofFn (Q j)).drop m)) ↔
        ∃ x ∈ (List.ofFn (Q j)).drop m, x ≠ 0 := dot_self_pos_iff
  rw [h.exists_kernel_iff hstair, hrest, hpos]
  constructor
  · rintro ⟨x, hx, hne⟩
    obtain ⟨i, hi, rfl⟩ := List.mem_iff_getElem.1 hx
    rw [List.length_drop, List.length_ofFn] at hi
    rw [List.getElem_drop, List.getElem_ofFn] at hne
    exact ⟨⟨m + i, by omega⟩, Nat.le_add_right .., hne⟩
  · rintro ⟨i, hi, hne⟩
    refine ⟨_, List.mem_of_getElem? (i := i - m) ?_, hne⟩
    rw [List.getElem?_drop, Nat.add_sub_cancel' hi, List.getElem?_ofFn, dif_pos i.2]

end PivotedQR.Factors

end SketchSolver
