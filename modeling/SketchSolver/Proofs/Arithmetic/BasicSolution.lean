import SketchSolver.Proofs.Arithmetic.Pivots

/-!
# Basic solutions

Back substitution goes up the leading block of the triangular factor, so when it comes to a row, all
unknowns but one are known there, and it solves the row for that one
(`PivotedQR.backSubstitute_spec`). Where the block has as many rows as the rank, the rows below it
are zero, and so are those of a right side that has a solution. So the basic solution solves every
system that has a solution (`PivotedQR.Factors.exists_basicSolution`). The rank that is counted
depends on the distance of adjacent numbers, which exact arithmetic does not have; whatever is taken
for it, all that matters is that the count is right (`PivotedQR.solveBasic_correct`).
-/

namespace SketchSolver

open Matrix

/-! ## Unknowns at their places -/

/-- Paired with another list, a list keeps its order and may lose its end. -/
theorem map_fst_zip_sublist : ∀ (l : List β) (l' : List γ), ((l.zip l').map Prod.fst).Sublist l
  | [], _ => .slnil
  | _ :: _, [] => List.nil_sublist _
  | x :: l, _ :: l' => (map_fst_zip_sublist l l').cons_cons x

/-- Setting entries leaves the number of entries. -/
theorem length_foldl_set (ps : List (Nat × β)) : ∀ x : List β,
    (ps.foldl (fun x (j, v) => x.set j v) x).length = x.length := by
  induction ps with
  | nil => exact fun _ => rfl
  | cons e ps ih => exact fun x => (ih _).trans List.length_set

/-- A place that nothing is written to keeps its element. -/
theorem getElem?_foldl_set_of_notMem {ps : List (Nat × β)} {j : Nat} (hj : j ∉ ps.map Prod.fst) :
    ∀ x : List β, (ps.foldl (fun x (j, v) => x.set j v) x)[j]? = x[j]? := by
  induction ps with
  | nil => exact fun _ => rfl
  | cons e ps ih =>
    intro x
    obtain ⟨hne, hj⟩ := not_or.1 (mt List.mem_cons.2 hj)
    rw [List.foldl_cons, ih hj, List.getElem?_set_ne (Ne.symm hne)]

/-- Where no place is written to twice, every element is at its place in the end. -/
theorem getElem?_foldl_set {ps : List (Nat × β)} (hnodup : (ps.map Prod.fst).Nodup) {j : Nat}
    {v : β} (hmem : (j, v) ∈ ps) : ∀ {x : List β}, j < x.length →
      (ps.foldl (fun x (j, v) => x.set j v) x)[j]? = some v := by
  induction ps with
  | nil => cases hmem
  | cons e ps ih =>
    intro x hj
    obtain ⟨hfirst, hnodup⟩ := List.nodup_cons.1 hnodup
    rw [List.foldl_cons]
    rcases List.mem_cons.1 hmem with rfl | hmem
    · rw [getElem?_foldl_set_of_notMem hfirst]
      exact List.getElem?_set_self hj
    · exact ih hnodup hmem (by rwa [List.length_set])

/-! ## Back substitution -/

namespace PivotedQR

/-- The basic solution, if the rank is the given one. -/
def basicSolution [Scalar α] (qr : PivotedQR α) (rank : Nat) (b : List α) : Option (List α) :=
  if b.length != qr.height then none
  else
    let y := qr.backSubstitute (qr.transposeTimes b) rank []
    if y.all Scalar.isFinite then
      some ((qr.permutation.zip y).foldl (fun x (j, v) => x.set j v)
        (List.replicate qr.width 0))
    else none

variable [Field K] [LinearOrder K] [PartialFunctions K] {qr : PivotedQR (Exact K)}

/-- What is left of the right side of a row once the unknowns that are known are moved there. -/
theorem foldl_sub_mul_numbers (hqr : qr.IsNumeric) (i : Nat) : ∀ (ys : List K) (n : Nat) (a : K),
    ((numbers ys).zipIdx n).foldl (fun s (y, k) => s - qr.upperEntry i (i + 1 + k) * y)
      (.number a) = .number (a - ∑ k ∈ Finset.range ys.length,
        (qr.upperEntry i (i + 1 + (n + k))).toNumber * ys.getD k 0)
  | [], n, a => congrArg Exact.number (sub_zero a).symm
  | y :: ys, n, a => by
    obtain ⟨u, hu⟩ := hqr.isNumber_upperEntry i (i + 1 + n)
    have hstep : Exact.number a - qr.upperEntry i (i + 1 + n) * .number y =
        .number (a - u * y) := by
      rw [hu]
      rfl
    have hcons : (numbers (y :: ys)).zipIdx n = (.number y, n) :: (numbers ys).zipIdx (n + 1) := rfl
    rw [hcons, List.foldl_cons]
    simp only [hstep]
    rw [foldl_sub_mul_numbers hqr i ys (n + 1), List.length_cons, Finset.sum_range_succ']
    simp only [List.getD_cons_succ, List.getD_cons_zero, add_zero, hu, Exact.toNumber]
    have hshift : ∀ k, n + 1 + k = n + (k + 1) := fun k => by omega
    simp only [hshift]
    congr 1
    ring

/-- Back substitution solves the rows of the leading block. -/
theorem backSubstitute_spec (hqr : qr.IsNumeric) {r : Nat}
    (hdiagonal : ∀ i < r, (qr.upperEntry i i).toNumber ≠ 0) (w : List K) :
    ∀ (rows : Nat) (ys : List K), rows + ys.length = r → ∃ xs : List K, xs.length = rows ∧
      qr.backSubstitute (numbers w) rows (numbers ys) = numbers (xs ++ ys) ∧
      ∀ i < rows, ∑ k ∈ Finset.Ico i r, (qr.upperEntry i k).toNumber * (xs ++ ys).getD k 0 =
        w.getD i 0
  | 0, ys, _ => ⟨[], rfl, rfl, nofun⟩
  | i + 1, ys, hr => by
    let s := w.getD i 0 - ∑ k ∈ Finset.range ys.length,
      (qr.upperEntry i (i + 1 + k)).toNumber * ys.getD k 0
    obtain ⟨d, hd⟩ := hqr.isNumber_upperEntry i i
    have hne : d ≠ 0 := by
      have := hdiagonal i (by omega)
      rwa [hd] at this
    obtain ⟨xs, hxs, hback, hrows⟩ := backSubstitute_spec hqr hdiagonal w i (s / d :: ys)
      (by rw [List.length_cons]; omega)
    refine ⟨xs ++ [s / d], by simp [hxs], ?back, fun i' hi' => ?row⟩
    case back =>
      have hquotient : Exact.number s / qr.upperEntry i i = .number (s / d) := by
        rw [hd]
        exact Exact.div_eq_number.2 ⟨s, d, rfl, rfl, hne, rfl⟩
      have hsum := foldl_sub_mul_numbers hqr i ys 0 (w.getD i 0)
      simp only [Nat.zero_add] at hsum
      rw [backSubstitute]
      simp only [getD_numbers, hsum]
      rw [List.append_assoc]
      refine Eq.trans ?_ hback
      exact congrArg (fun a => qr.backSubstitute (numbers w) i (a :: numbers ys)) hquotient
    case row =>
      rw [List.append_assoc]
      rcases Nat.lt_or_ge i' i with hlt | hge
      · exact hrows i' hlt
      obtain rfl : i' = i := by omega
      have hself : (xs ++ ([s / d] ++ ys)).getD i' 0 = s / d := by
        rw [List.getD_append_right _ _ _ _ hxs.le, hxs, Nat.sub_self]
        rfl
      have hbehind : ∀ k, (xs ++ ([s / d] ++ ys)).getD (i' + 1 + k) 0 = ys.getD k 0 := by
        intro k
        rw [List.getD_append_right _ _ _ _ (by omega),
          show i' + 1 + k - xs.length = k + 1 by omega]
        rfl
      rw [Finset.sum_eq_sum_Ico_succ_bot (by omega), hself, Finset.sum_Ico_eq_sum_range]
      simp only [hbehind]
      have hcount : r - (i' + 1) = ys.length := by omega
      rw [hcount, hd, Exact.toNumber, mul_div_cancel₀ _ hne]
      simp only [s]
      ring

/-! ## Solutions -/

variable {n m r : Nat} {M : Matrix (Fin n) (Fin m) K} {Q : Matrix (Fin n) (Fin n) K}
  {σ : Equiv.Perm (Fin m)}

/-- An unknown is at the place of its column, and zero if it has not been found. -/
theorem Factors.foldl_set_eq (h : qr.Factors M Q σ) (y : List K) :
    (qr.permutation.zip (numbers y)).foldl (fun x (j, v) => x.set j v)
      (List.replicate qr.width 0) = numbers (List.ofFn fun j => y.getD (σ.symm j) 0) := by
  have hnodup : ((qr.permutation.zip (numbers y)).map Prod.fst).Nodup := by
    have hpermutation := h.permutation_perm.nodup_iff.2 List.nodup_range
    exact hpermutation.sublist (map_fst_zip_sublist _ _)
  refine List.ext_getElem? fun j => ?_
  by_cases hj : j < m
  case neg =>
    rw [List.getElem?_eq_none, List.getElem?_eq_none]
    · simpa [numbers] using hj
    · rw [length_foldl_set, List.length_replicate, h.width]
      omega
  let k : Fin m := σ.symm ⟨j, hj⟩
  have hplace : qr.permutation[(k : Nat)]? = some j := by rw [h.permutation]; simp [k]
  have hvalue : (numbers (List.ofFn fun j => y.getD (σ.symm j) 0))[j]? =
      some (.number (y.getD k 0)) := by
    rw [numbers, List.getElem?_map, List.getElem?_ofFn, dif_pos hj]
    rfl
  rw [hvalue]
  cases hk : (numbers y)[(k : Nat)]? with
  | some v =>
    have hmem := List.mem_of_getElem? ((List.getElem?_zip_eq_some (z := (j, v))).2 ⟨hplace, hk⟩)
    rw [getElem?_foldl_set hnodup hmem (by rw [List.length_replicate, h.width]; exact hj)]
    rw [numbers, List.getElem?_map] at hk
    obtain ⟨a, ha, rfl⟩ := Option.map_eq_some_iff.1 hk
    rw [List.getD_eq_getElem?_getD, ha, Option.getD_some]
  | none =>
    have hlength : y.length ≤ k := by simpa [numbers] using hk
    rw [getElem?_foldl_set_of_notMem, List.getElem?_replicate, if_pos (h.width.symm ▸ hj),
      List.getD_eq_default _ _ hlength]
    · rfl
    -- The places behind the block are those of the other columns.
    intro hmem
    obtain ⟨e, he, rfl⟩ := List.mem_map.1 hmem
    obtain ⟨k', hk'⟩ := List.getElem?_of_mem he
    obtain ⟨hplace', hvalue'⟩ := List.getElem?_zip_eq_some.1 hk'
    have hsame : k' = k := by
      refine (List.getElem?_inj (List.getElem?_eq_some_iff.1 hplace').1 ?_).1
        (hplace'.trans hplace.symm)
      exact h.permutation_perm.nodup_iff.2 List.nodup_range
    rw [hsame, hk] at hvalue'
    cases hvalue'

/-- What solves the rows of the leading block and is zero behind it solves the other rows too, if
anything does. -/
theorem Factors.mulVec_eq (h : qr.Factors M Q σ) (hstair : Staircase (triangularFactor Q M σ) r)
    {x : Fin m → K} {y : List K} (hy : y.length = r)
    (hrows : ∀ i : Fin n, (i : Nat) < r →
      ∑ k ∈ Finset.Ico (i : Nat) r, (qr.upperEntry i k).toNumber * y.getD k 0 =
        (triangularFactor Q M σ *ᵥ x) i) :
    (triangularFactor Q M σ *ᵥ fun k => y.getD k 0) = triangularFactor Q M σ *ᵥ x := by
  funext i
  rcases Nat.lt_or_ge i r with hi | hi
  · rw [← hrows i hi, mulVec, dotProduct]
    calc ∑ k : Fin m, triangularFactor Q M σ i k * y.getD k 0
        = ∑ k : Fin m, (qr.upperEntry i k).toNumber * y.getD k 0 := by
          simp only [h.toNumber_upperEntry]
      _ = ∑ k ∈ Finset.range m, (qr.upperEntry i k).toNumber * y.getD k 0 :=
          Fin.sum_univ_eq_sum_range (fun k => (qr.upperEntry i k).toNumber * y.getD k 0) m
      _ = ∑ k ∈ Finset.Ico (i : Nat) r, (qr.upperEntry i k).toNumber * y.getD k 0 := by
          refine (Finset.sum_subset (fun k hk => ?_) fun k hk hout => ?_).symm
          · have hk := Finset.mem_Ico.1 hk
            exact Finset.mem_range.2 (hk.2.trans_le hstair.le_width)
          · have hk := Finset.mem_range.1 hk
            rcases Nat.lt_or_ge k i with hki | hik
            · rw [h.toNumber_upperEntry i ⟨k, hk⟩, hstair.triangular i ⟨k, hk⟩ hki, zero_mul]
            · have hrk : r ≤ k := Nat.le_of_not_lt fun hkr =>
                hout (Finset.mem_Ico.2 ⟨hik, hkr⟩)
              rw [List.getD_eq_default _ _ (hy.trans_le hrk), mul_zero]
  · simp only [mulVec, dotProduct, hstair.zero i _ hi, zero_mul]

/-- The columns of the leading block are those that the permutation has in its first places. -/
theorem Factors.mem_take_permutation (h : qr.Factors M Q σ) {j : Fin m}
    (hj : (σ.symm j : Nat) < r) : (j : Nat) ∈ qr.permutation.take r := by
  have hplace : qr.permutation[(σ.symm j : Nat)]? = some (j : Nat) := by
    rw [h.permutation]
    simp
  exact List.mem_of_getElem? ((List.getElem?_take_of_lt hj).trans hplace)

/-- Every right side has a basic solution, if the factorization is one of the matrix and the rank is
right. It is zero outside the leading block, and it solves the system if anything does. -/
theorem Factors.exists_basicSolution (h : qr.Factors M Q σ)
    (hstair : Staircase (triangularFactor Q M σ) r) (b : Fin n → K) : ∃ z : Fin m → K,
      qr.basicSolution r (numbers (List.ofFn b)) = some (numbers (List.ofFn z)) ∧
      (∀ j : Fin m, (j : Nat) ∉ qr.permutation.take r → z j = 0) ∧
      ∀ x, M *ᵥ x = b → M *ᵥ z = b := by
  have hdiagonal : ∀ i < r, (qr.upperEntry i i).toNumber ≠ 0 := by
    intro i hi
    have hin := hi.trans_le hstair.le_height
    have him := hi.trans_le hstair.le_width
    rw [h.toNumber_upperEntry ⟨i, hin⟩ ⟨i, him⟩]
    exact hstair.diagonal ⟨i, hin⟩ ⟨i, him⟩ rfl hi
  obtain ⟨y, hy, hback, hrows⟩ := backSubstitute_spec h.isNumeric hdiagonal
    (List.ofFn (Qᵀ *ᵥ b)) r [] rfl
  simp only [List.append_nil] at hback hrows
  let u : Fin m → K := fun k => y.getD k 0
  refine ⟨u ∘ σ.symm, ?solution, ?outside, ?solves⟩
  case outside =>
    refine fun j hj => List.getD_eq_default _ _ (hy.trans_le (Nat.le_of_not_lt fun hlt => ?_))
    exact hj (h.mem_take_permutation hlt)
  case solves =>
    rintro x rfl
    have hsource : triangularFactor Q M σ *ᵥ (x ∘ σ) = Qᵀ *ᵥ (M *ᵥ x) := by
      rw [triangularFactor_mulVec, Function.comp_assoc, Equiv.self_comp_symm, Function.comp_id]
    have hsolved : triangularFactor Q M σ *ᵥ u = triangularFactor Q M σ *ᵥ (x ∘ σ) :=
      h.mulVec_eq hstair hy fun i hi => by
        rw [hsource, hrows i hi, List.getD_eq_getElem _ _ (List.length_ofFn.symm ▸ i.2),
          List.getElem_ofFn]
    rw [hsource, triangularFactor_mulVec] at hsolved
    rw [← h.mulVec_transpose_mulVec (M *ᵥ _), hsolved, h.mulVec_transpose_mulVec]
  case solution =>
    have hfinite : (numbers y).all Scalar.isFinite = true := by
      refine List.all_eq_true.2 fun a ha => ?_
      obtain ⟨v, _, rfl⟩ := List.mem_map.1 ha
      rfl
    have hlength : (numbers (List.ofFn b)).length = qr.height := by
      simp [numbers, h.height]
    have hback' : qr.backSubstitute (qr.transposeTimes (numbers (List.ofFn b))) r [] =
        numbers y := by
      rw [h.transposeTimes]
      exact hback
    unfold basicSolution
    simp only [hback', hfinite, hlength, bne_self_eq_false, Bool.false_eq_true, if_false, if_true]
    rw [h.foldl_set_eq]
    rfl

end PivotedQR

/-! ## Another distance of adjacent numbers -/

section
variable [Field K] [LinearOrder K] [PartialFunctions K]

/-- Exact arithmetic that takes the given number for the distance of adjacent numbers at one, where
otherwise there is none between them. -/
@[reducible] def Exact.withEpsilon (ε : Exact K) : Scalar (Exact K) :=
  { (inferInstance : Scalar (Exact K)) with epsilon := ε }

variable (ε : Exact K)

/-- Subtracting a multiple of a reflection's vector does not read the distance of numbers at one. -/
theorem Reflection.subtract_withEpsilon (s : Exact K) : ∀ tail ys : List (Exact K),
    @subtract _ (Exact.withEpsilon ε) s tail ys = subtract s tail ys
  | [], _ => rfl
  | _ :: _, [] => rfl
  | v :: vs, y :: ys => congrArg ((y - s * v) :: ·) (subtract_withEpsilon s vs ys)

/-- A reflection does not read the distance of numbers at one. -/
theorem Reflection.apply_withEpsilon (r : Reflection (Exact K)) : ∀ ys : List (Exact K),
    @apply _ (Exact.withEpsilon ε) r ys = r.apply ys
  | [] => rfl
  | y :: ys => by
    unfold apply
    simp only [subtract_withEpsilon]

/-- A column is reflected without reading the distance of numbers at one. -/
theorem PivotedColumn.reflect_withEpsilon (r : Reflection (Exact K))
    (c : PivotedColumn (Exact K)) : @reflect _ (Exact.withEpsilon ε) r c = c.reflect r := by
  unfold reflect
  rw [Reflection.apply_withEpsilon]

/-- The triangular form is reached without reading the distance of numbers at one. -/
theorem triangularize_withEpsilon : ∀ (steps : Nat) (columns : List (PivotedColumn (Exact K))),
    @triangularize _ (Exact.withEpsilon ε) steps columns = triangularize steps columns
  | 0, _ => rfl
  | steps + 1, columns => by
    unfold triangularize
    simp only [PivotedColumn.reflect_withEpsilon, triangularize_withEpsilon]
    rfl

namespace PivotedQR

/-- The factorization does not depend on the distance of numbers at one. -/
theorem factorize_withEpsilon (A : DenseMatrix (Exact K)) :
    @factorize _ (Exact.withEpsilon ε) A = factorize A := by
  unfold factorize
  simp only [triangularize_withEpsilon]
  rfl

/-- A right side is reflected without reading the distance of numbers at one. -/
theorem reflectAll_withEpsilon : ∀ (rs : List (Reflection (Exact K))) (ys : List (Exact K)),
    @reflectAll _ (Exact.withEpsilon ε) rs ys = reflectAll rs ys
  | [], _ => rfl
  | r :: rs, ys => by
    unfold reflectAll
    simp only [Reflection.apply_withEpsilon, reflectAll_withEpsilon]

/-- Substituting back does not read the distance of numbers at one. -/
theorem backSubstitute_withEpsilon (qr : PivotedQR (Exact K)) (w : List (Exact K)) :
    ∀ (rows : Nat) (known : List (Exact K)),
      @backSubstitute _ (Exact.withEpsilon ε) qr w rows known = qr.backSubstitute w rows known
  | 0, _ => rfl
  | i + 1, _ => backSubstitute_withEpsilon qr w i _

/-- Only the rank depends on the distance of adjacent numbers. -/
theorem solveBasic_withEpsilon (qr : PivotedQR (Exact K)) (b : List (Exact K)) :
    @solveBasic _ (Exact.withEpsilon ε) qr b =
      qr.basicSolution (@rank _ (Exact.withEpsilon ε) qr) b := by
  unfold solveBasic basicSolution transposeTimes
  simp only [backSubstitute_withEpsilon, reflectAll_withEpsilon]
  rfl

variable [IsStrictOrderedRing K] [LawfulRoot K] [TotalRoot K]

/-- If the numerical rank of a matrix is its rank, whatever is taken for the distance of adjacent
numbers at one, then every right side of its height has a basic solution. It is zero on the columns
outside the first pivots, as many as the rank, and solves the system if anything does. A right side
of another length has none. -/
theorem solveBasic_correct {A : DenseMatrix (Exact K)} (hA : ∀ c ∈ A.columns, Numbers c)
    (hrank : @rank _ (Exact.withEpsilon ε) (@factorize _ (Exact.withEpsilon ε) A) =
      A.toMatrix.rank) :
    let qr := @factorize _ (Exact.withEpsilon ε) A
    (∀ b : Fin A.height → K, ∃ x : Fin A.width → K,
      @solveBasic _ (Exact.withEpsilon ε) qr (numbers (List.ofFn b)) =
        some (numbers (List.ofFn x)) ∧
      (∀ j : Fin A.width,
        (j : Nat) ∉ qr.permutation.take (@rank _ (Exact.withEpsilon ε) qr) → x j = 0) ∧
      ∀ x', A.toMatrix *ᵥ x' = b → A.toMatrix *ᵥ x = b) ∧
    ∀ b : List (Exact K), b.length ≠ A.height →
      @solveBasic _ (Exact.withEpsilon ε) qr b = none := by
  rw [factorize_withEpsilon] at hrank ⊢
  intro qr
  have hentry := DenseMatrix.entry_toMatrix hA
  obtain ⟨Q, σ, h, hstair⟩ := exists_staircase rfl rfl hentry
  rw [rankAbove_zero rfl rfl hentry, ← hrank] at hstair
  simp only [solveBasic_withEpsilon]
  exact ⟨h.exists_basicSolution hstair, fun b hb => if_pos (bne_iff_ne.2 (h.height.symm ▸ hb))⟩

end PivotedQR

end

/-- Of the columns of a matrix of rank one, a basic solution uses one. -/
theorem PivotedQR.solveBasic_dependentColumns :
    (∀ c ∈ dependentColumns.columns, Numbers c) ∧
      (factorize dependentColumns).rank = dependentColumns.toMatrix.rank ∧
      ∃ x : Fin 3 → ℝ,
        (factorize dependentColumns).solveBasic (numbers [2, 2]) = some (numbers (List.ofFn x)) ∧
        (∃ j, ∀ k, k ≠ j → x k = 0) ∧ dependentColumns.toMatrix *ᵥ x = ![2, 2] := by
  have hrank : (factorize dependentColumns).rank = dependentColumns.toMatrix.rank :=
    isExactRank_factorize 2 3 _ _ rfl rfl (DenseMatrix.entry_toMatrix numbers_dependentColumns)
  obtain ⟨x, hx, hzero, hsolves⟩ := (solveBasic_correct 0 numbers_dependentColumns hrank).1 ![2, 2]
  refine ⟨numbers_dependentColumns, hrank, x, hx, ?one, hsolves ![0, 2, 0] ?solution⟩
  case one =>
    have hperm := factorize_dependentColumns.2.2
    have hpos : 0 < (factorize dependentColumns).permutation.length := by
      rw [hperm.length_eq]
      exact Nat.succ_pos 2
    obtain ⟨j, rest, hj⟩ := List.exists_cons_of_length_pos hpos
    have hlt : j < 3 := by
      have hmem := hperm.mem_iff.1 (hj ▸ List.mem_cons_self (l := rest))
      simp only [List.mem_cons, List.not_mem_nil, or_false] at hmem
      omega
    have htake : (factorize dependentColumns).permutation.take
        (factorize dependentColumns).rank = [j] := by
      rw [hrank, rank_dependentColumns, hj]
      rfl
    refine ⟨⟨j, hlt⟩, fun k hk => hzero k fun hmem => hk (Fin.ext ?_)⟩
    exact List.mem_singleton.1 (htake ▸ hmem)
  case solution =>
    rw [toMatrix_dependentColumns]
    refine (vecMulVec_mulVec (![1, 1] : Fin 2 → ℝ) ![0, 1, -1] ![0, 2, 0]).trans ?_
    norm_num [dotProduct, Fin.sum_univ_succ]

end SketchSolver
