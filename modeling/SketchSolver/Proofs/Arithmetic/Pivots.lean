import SketchSolver.Proofs.Arithmetic.Rank
import SketchSolver.Proofs.Arithmetic.Triangular

/-!
# Pivots

Every step takes the column of which most is left, and what it leaves of the others is no more than
that, so a diagonal entry of the triangular factor is at least as long as what is left, from its row
on, of its own column and of every later one (`PivotedQR.exists_descending`). Below the first
diagonal entry that is zero there is then nothing left at all: the triangular factor is a staircase,
as high as the diagonal has entries that are not zero, and that is the rank of the matrix
(`PivotedQR.exists_staircase`, `PivotedQR.rankAbove_zero`).
-/

namespace SketchSolver

open PivotedQR (reflectAll)
open Matrix

/-! ## Triangular matrices of a known rank -/

section
variable [Field K]

/-- The matrix is zero below the diagonal and below its first `r` rows, in which no diagonal entry
is zero. -/
structure Staircase (Z : Matrix (Fin n) (Fin m) K) (r : Nat) : Prop where
  le_height : r ≤ n
  le_width : r ≤ m
  triangular : ∀ (i : Fin n) (k : Fin m), (k : Nat) < i → Z i k = 0
  zero : ∀ (i : Fin n) (k : Fin m), r ≤ i → Z i k = 0
  diagonal : ∀ (i : Fin n) (k : Fin m), (k : Nat) = i → (k : Nat) < r → Z i k ≠ 0

/-- The rank of such a matrix is the number of its first rows, where the diagonal is not zero. -/
theorem Staircase.rank_eq {Z : Matrix (Fin n) (Fin m) K} {r : Nat} (h : Staircase Z r) :
    Z.rank = r := by
  refine le_antisymm ?upper ?lower
  case upper =>
    have hrows : Function.support Z.row ⊆
        ((Finset.univ.map (Fin.castLEEmb h.le_height) : Finset (Fin n)) : Set (Fin n)) := by
      intro i hi
      rw [Finset.mem_coe, Finset.mem_map]
      by_contra hnone
      refine hi (funext fun k => h.zero i k (Nat.le_of_not_lt fun hlt => hnone ?_))
      exact ⟨⟨i, hlt⟩, Finset.mem_univ _, rfl⟩
    refine (Z.rank_le_card_of_support_subset _ hrows).trans_eq ?_
    rw [Finset.card_map, Finset.card_univ, Fintype.card_fin]
  case lower =>
    have htriangular : (Z.submatrix (Fin.castLE h.le_height)
        (Fin.castLE h.le_width)).IsUpperTriangular :=
      fun i k hki => h.triangular _ _ hki
    have hdet : (Z.submatrix (Fin.castLE h.le_height) (Fin.castLE h.le_width)).det ≠ 0 := by
      rw [det_of_isUpperTriangular htriangular, Finset.prod_ne_zero_iff]
      exact fun i _ => h.diagonal _ _ rfl i.2
    calc r = (Z.submatrix (Fin.castLE h.le_height) (Fin.castLE h.le_width)).rank := by
          rw [rank_of_det_ne_zero hdet, Fintype.card_fin]
      _ ≤ Z.rank := Z.rank_submatrix_le _ _

section
variable [LinearOrder K] [IsStrictOrderedRing K]

/-- A diagonal entry is at least as long as what is left, from its row on, of its own column and of
every later one. -/
def Descending (Z : Matrix (Fin n) (Fin m) K) : Prop :=
  ∀ (i : Fin n) (k j : Fin m), (k : Nat) = i → k ≤ j → ∑ r : Fin n with i ≤ r, Z r j ^ 2 ≤ Z i k ^ 2

namespace Descending

variable {Z : Matrix (Fin n) (Fin m) K} {i i' : Fin n} {k j : Fin m}

/-- A diagonal entry is at least as long as any part of what is left. -/
theorem sum_le (h : Descending Z) (hki : (k : Nat) = i) (hkj : k ≤ j) {s : Finset (Fin n)}
    (hs : ∀ r ∈ s, i ≤ r) : ∑ r ∈ s, Z r j ^ 2 ≤ Z i k ^ 2 :=
  (Finset.sum_le_sum_of_subset_of_nonneg
    (fun r hr => Finset.mem_filter.2 ⟨Finset.mem_univ r, hs r hr⟩) fun _ _ _ => sq_nonneg _).trans
    (h i k j hki hkj)

/-- An entry behind a diagonal one, or to the right of it, is not larger. -/
theorem abs_le (h : Descending Z) (hki : (k : Nat) = i) (hkj : k ≤ j) (hi : i ≤ i') :
    |Z i' j| ≤ |Z i k| := by
  have hle := h.sum_le hki hkj (s := {i'}) fun r hr => Finset.mem_singleton.1 hr ▸ hi
  rw [Finset.sum_singleton] at hle
  exact sq_le_sq.1 hle

end Descending

end

/-- The product of a vector with itself is the sum of the squares of its entries. -/
theorem dot_self_eq_sum : ∀ xs : List K,
    dot xs xs = ∑ i ∈ Finset.range xs.length, xs.getD i 0 ^ 2
  | [] => rfl
  | x :: xs => by
    rw [dot_cons, dot_self_eq_sum xs, List.length_cons, Finset.sum_range_succ', add_comm, ← sq]
    rfl

end

/-! ## What is left of a column -/

variable [Field K] [LinearOrder K] [PartialFunctions K] [IsStrictOrderedRing K]

section
variable {n s : Nat} {rs : List (Reflection (Exact K))} {c c' pivot : PivotedColumn (Exact K)}
  {columns others : List (PivotedColumn (Exact K))} {w d : K} {tail : List K}

/-- Reflections keep the length of the open part of a column. -/
theorem PivotedColumn.Reflected.sum_entry (h : Reflected rs c c') (hrs : Orthogonal n rs)
    (hs : c.settled.length = s) (hc : c.OpensTo n) {y : List K} (hopen : c.openPart = numbers y) :
    ∑ i ∈ Finset.range n, (c'.entry (s + i)).toNumber ^ 2 = dot y y := by
  have hy : y.length = n := by
    rw [← hc.length, hopen, numbers, List.length_map]
  obtain ⟨z, hz, himage⟩ := hrs.exists_image hy
  have hentry : ∀ i, (c'.entry (s + i)).toNumber = z.getD i 0 := by
    intro i
    rw [h.entry, hopen, himage, List.getD_append_right _ _ _ _ (by omega), hs,
      Nat.add_sub_cancel_left, getD_numbers]
    rfl
  simp only [hentry]
  rw [← hrs.dot_eq hy hy himage himage, dot_self_eq_sum, hz]

/-- What is left of a column when a pivot is taken is not longer than the pivot. -/
theorem TakesPivot.sum_entry_le (hpivot : TakesPivot n columns pivot others w d tail)
    (h : c.Reflected rs c') (hrs : Orthogonal (n + 1) rs)
    (hcolumns : ∀ c ∈ columns, c.OpensTo (n + 1))
    (hsettled : ∀ c ∈ columns, c.settled.length = s) (hc : c ∈ columns) :
    ∑ i ∈ Finset.range (n + 1), (c'.entry (s + i)).toNumber ^ 2 ≤ d ^ 2 := by
  obtain ⟨y, hopen, hle⟩ := hpivot.longest c hc
  rw [h.sum_entry hrs (hsettled c hc) (hcolumns c hc) hopen, sq]
  exact hle

/-- A step settles one entry of every other column. -/
theorem TakesPivot.length_settled_rest (hpivot : TakesPivot n columns pivot others w d tail)
    (hcolumns : ∀ c ∈ columns, c.OpensTo (n + 1))
    (hsettled : ∀ c ∈ columns, c.settled.length = s) :
    ∀ c ∈ others.map (·.reflect ⟨.number w, numbers tail⟩), c.settled.length = s + 1 := by
  refine List.forall_mem_map.2 fun c hc => ?_
  have hmem := hpivot.mem_columns c hc
  obtain ⟨a, ys, _, hreflect, _⟩ := PivotedColumn.reflect_spec hpivot.length hpivot.weight
    (hcolumns c hmem)
  rw [hreflect, List.length_append, hsettled c hmem, List.length_singleton]

variable [LawfulRoot K] [TotalRoot K]

/-- A diagonal entry is at least as long as what is left of its own column and of every later
one. -/
theorem sum_entry_triangularize_le : ∀ {height s : Nat} {columns : List (PivotedColumn (Exact K))}
    (steps : Nat), (∀ c ∈ columns, c.OpensTo height) → (∀ c ∈ columns, c.settled.length = s) →
      steps = min height columns.length → ∀ {k j : Nat} {c c' : PivotedColumn (Exact K)},
      (triangularize steps columns).2[k]? = some c →
      (triangularize steps columns).2[j]? = some c' → k ≤ j →
      ∑ i ∈ Finset.range (height - k), (c'.entry (s + (k + i))).toNumber ^ 2 ≤
        (c.entry (s + k)).toNumber ^ 2
  | height, s, columns, 0, _, _, hsteps, k, j, c, c', hk, _, _ => by
    have hpos : 0 < columns.length := List.length_pos_of_mem (List.mem_of_getElem? hk)
    obtain rfl : height = 0 := by omega
    rw [Nat.zero_sub, Finset.sum_range_zero]
    exact sq_nonneg _
  | height, s, columns, steps + 1, hcolumns, hsettled, hsteps, k, j, c, c', hk, hj, hkj => by
    obtain ⟨n, rfl⟩ : ∃ n, height = n + 1 := ⟨height - 1, by omega⟩
    have hne : columns ≠ [] := by
      rintro rfl
      simp at hsteps
    obtain ⟨hrs, _, order, horder, hreflected, _⟩ :=
      triangularizes_triangularize (steps + 1) hcolumns hsteps
    rcases triangularize_cases steps hcolumns hne with ⟨columns', hperm, hzero, heq⟩ |
      ⟨pivot, others, w, d, tail, hpivot, heq⟩
    · -- Nothing is left of any column.
      rw [heq] at hj
      have hmem := List.mem_of_getElem? hj
      have hentry : ∀ i, (c'.entry (s + (k + i))).toNumber = 0 := by
        intro i
        rw [PivotedColumn.entry, hzero c' hmem, getD_append_replicate, List.getD_eq_default]
        · rfl
        · rw [hsettled c' (hperm.subset hmem)]
          omega
      simp only [hentry, ne_eq, OfNat.ofNat_ne_zero, not_false_eq_true, zero_pow,
        Finset.sum_const_zero]
      exact sq_nonneg _
    · cases k with
      | zero =>
        -- The pivot has been the longest, and reflections keep lengths.
        obtain ⟨hlt, rfl⟩ := List.getElem?_eq_some_iff.1 hj
        have hlt' : j < order.length := hreflected.length_eq ▸ hlt
        have hsum := hpivot.sum_entry_le (hreflected.get hlt' hlt) hrs hcolumns hsettled
          (horder.subset (List.get_mem order ⟨j, hlt'⟩))
        have hdiagonal : (c.entry (s + 0)).toNumber = d := by
          rw [heq] at hk
          obtain rfl := Option.some.inj hk
          have hlength := hsettled pivot (hpivot.perm.subset (List.mem_cons_self ..))
          simp [PivotedColumn.entry, ← hlength, Exact.toNumber]
        rw [hdiagonal]
        simpa only [Nat.zero_add, Nat.sub_zero, List.get_eq_getElem] using hsum
      | succ k =>
        obtain ⟨j, rfl⟩ := Nat.exists_eq_add_one_of_ne_zero (Nat.ne_of_gt (Nat.zero_lt_of_lt hkj))
        rw [heq] at hk hj
        have hlength := hpivot.length_rest
        have hrest := sum_entry_triangularize_le steps (hpivot.opensTo_rest hcolumns)
          (hpivot.length_settled_rest hcolumns hsettled) (by omega) hk hj
          (Nat.le_of_succ_le_succ hkj)
        have hshift : ∀ i, s + (k + 1 + i) = s + 1 + (k + i) := fun i => by omega
        simp only [Nat.add_sub_add_right, hshift]
        rwa [show s + (k + 1) = s + 1 + k by omega]

/-- A diagonal entry of the triangular factor is at least as long as what is left of its own column
and of every later one. -/
theorem PivotedQR.sum_upperEntry_le {A : DenseMatrix (Exact K)}
    (hA : ∀ c ∈ A.columns, Numbers c) {k j : Nat} (hkj : k ≤ j) (hj : j < A.width) :
    ∑ i ∈ Finset.range (A.height - k), ((factorize A).upperEntry (k + i) j).toNumber ^ 2 ≤
      ((factorize A).upperEntry k k).toNumber ^ 2 := by
  have hwidth : (factorize A).columns.length = A.width := by
    obtain ⟨_, _, order, horder, hreflected, _⟩ := triangularizes_factorize hA
    rw [← hreflected.length_eq, horder.length_eq, A.length_openColumns]
  have hcolumn : ∀ j < A.width, ∃ c, (factorize A).columns[j]? = some c ∧
      ∀ i, (factorize A).upperEntry i j = c.entry i := by
    intro j hj
    have hc := List.getElem?_eq_getElem (hwidth.symm ▸ hj : j < (factorize A).columns.length)
    exact ⟨_, hc, fun i => by rw [upperEntry, hc]⟩
  obtain ⟨c, hc, hentry⟩ := hcolumn k (hkj.trans_lt hj)
  obtain ⟨c', hc', hentry'⟩ := hcolumn j hj
  have hsettled : ∀ c ∈ A.openColumns, c.settled.length = 0 := List.forall_mem_map.2 fun _ _ => rfl
  have hsum := sum_entry_triangularize_le (min A.height A.width) (A.opensTo_openColumns hA) hsettled
    (congrArg (min A.height) A.length_openColumns.symm) hc hc' hkj
  simp only [Nat.zero_add] at hsum
  simpa only [hentry, hentry'] using hsum

end

/-! ## Rank -/

section
variable {n m : Nat} {A : DenseMatrix (Exact K)} {M : Matrix (Fin n) (Fin m) K}
  [LawfulRoot K] [TotalRoot K]

/-- The triangular factor of a matrix has a descending diagonal. -/
theorem PivotedQR.exists_descending (hheight : A.height = n) (hwidth : A.width = m)
    (hentry : ∀ (i : Fin n) (j : Fin m), A.entry i j = .number (M i j)) :
    ∃ Q σ, (factorize A).Factors M Q σ ∧ Descending (triangularFactor Q M σ) := by
  obtain ⟨Q, σ, h⟩ := exists_factors hheight hwidth hentry
  refine ⟨Q, σ, h, fun i k j hki hkj => ?_⟩
  have hle := sum_upperEntry_le (DenseMatrix.numbers_of_entry hheight hwidth hentry)
    (Fin.le_def.1 hkj) (hwidth.symm ▸ j.2)
  rw [hheight, ← Finset.sum_Ico_eq_sum_range (fun r => ((factorize A).upperEntry r j).toNumber ^ 2),
    hki] at hle
  calc ∑ r : Fin n with i ≤ r, triangularFactor Q M σ r j ^ 2
      = ∑ r : Fin n, if (i : Nat) ≤ r then ((factorize A).upperEntry r j).toNumber ^ 2 else 0 := by
        simp only [Finset.sum_filter, h.toNumber_upperEntry, Fin.le_def]
    _ = ∑ r ∈ Finset.Ico (i : Nat) n, ((factorize A).upperEntry r j).toNumber ^ 2 := by
        rw [Fin.sum_univ_eq_sum_range
          (fun r => if (i : Nat) ≤ r then ((factorize A).upperEntry r j).toNumber ^ 2 else 0),
          ← Finset.sum_filter]
        refine Finset.sum_congr (Finset.ext fun r => ?_) fun _ _ => rfl
        simp [and_comm]
    _ ≤ ((factorize A).upperEntry i i).toNumber ^ 2 := hle
    _ = triangularFactor Q M σ i k ^ 2 := by rw [← h.toNumber_upperEntry, hki]

/-- The triangular factor of a matrix is a staircase, and its diagonal tells how high it is. -/
theorem PivotedQR.exists_staircase (hheight : A.height = n) (hwidth : A.width = m)
    (hentry : ∀ (i : Fin n) (j : Fin m), A.entry i j = .number (M i j)) :
    ∃ Q σ, (factorize A).Factors M Q σ ∧
      Staircase (triangularFactor Q M σ) ((factorize A).rankAbove 0) := by
  obtain ⟨Q, σ, h, hdescending⟩ := exists_descending hheight hwidth hentry
  have hle : (factorize A).rankAbove 0 ≤ min n m := h.diagonalLength_eq ▸ rankAbove_le _ _
  refine ⟨Q, σ, h, hle.trans (min_le_left n m), hle.trans (min_le_right n m), h.triangular,
    fun i k hi => ?zero, fun i k hki hk => ?diagonal⟩
  case diagonal =>
    have hlt := lt_abs_of_lt_rankAbove hk
    have hdiagonal := h.upperEntry i k
    rw [← hki] at hdiagonal
    rw [hdiagonal] at hlt
    exact abs_pos.1 hlt
  case zero =>
    rcases lt_or_ge (k : Nat) i with hki | hik
    · exact h.triangular i k hki
    -- The first entry that is not counted is zero, and what it dominates is zero too.
    have hr : (factorize A).rankAbove 0 < min n m := lt_min (hi.trans_lt i.2) (by omega)
    have hstop := not_lt_abs_rankAbove (h.diagonalLength_eq.symm ▸ hr)
    have hrn := hr.trans_le (min_le_left n m)
    have hrm := hr.trans_le (min_le_right n m)
    rw [h.upperEntry ⟨_, hrn⟩ ⟨_, hrm⟩] at hstop
    have hnone : triangularFactor Q M σ ⟨_, hrn⟩ ⟨_, hrm⟩ = 0 := by
      by_contra hne
      exact hstop (abs_pos.2 hne)
    have hle := hdescending.abs_le (k := ⟨_, hrm⟩) (i := ⟨_, hrn⟩) rfl (hi.trans hik) hi
    rwa [hnone, abs_zero, abs_nonpos_iff] at hle

/-- The diagonal entries that are not zero are as many as the rank. -/
theorem PivotedQR.rankAbove_zero (hheight : A.height = n) (hwidth : A.width = m)
    (hentry : ∀ (i : Fin n) (j : Fin m), A.entry i j = .number (M i j)) :
    (factorize A).rankAbove 0 = M.rank := by
  obtain ⟨Q, σ, h, hstair⟩ := exists_staircase hheight hwidth hentry
  rw [← hstair.rank_eq, rank_triangularFactor h.orthogonal]

/-- In exact arithmetic, the numerical rank is the rank. -/
theorem PivotedQR.isExactRank_factorize : IsExactRank (K := K) fun A => (factorize A).rank := by
  intro m n M A hheight hwidth hentry
  have hnumeric := isNumeric_factorize (DenseMatrix.numbers_of_entry hheight hwidth hentry)
  change (factorize A).rankAbove (factorize A).threshold = M.rank
  rw [hnumeric.threshold_eq]
  exact rankAbove_zero hheight hwidth hentry

end

/-- A prefix of the diagonal is above a threshold, and nothing behind it. -/
theorem length_takeWhile_eq_countP {p : β → Bool} {l : List β}
    (hdown : l.Pairwise fun x y => p y = true → p x = true) :
    (l.takeWhile p).length = l.countP p := by
  induction l with
  | nil => rfl
  | cons x l ih =>
    obtain ⟨hx, hl⟩ := List.pairwise_cons.1 hdown
    rw [List.takeWhile_cons, List.countP_cons]
    cases hpx : p x with
    | true => simp [ih hl]
    | false =>
      have hnone : l.countP p = 0 := List.countP_eq_zero.2 fun y hy hpy => by
        simp [hx y hy hpy] at hpx
      simp [hnone]

section
variable [LawfulRoot K] [TotalRoot K]

/-- A factorization reveals the rank: the diagonal descends, the more strongly so since an entry is
at least as long as what is left of every later column, so all entries above a threshold are
counted, and those that are not zero are as many as the rank of the matrix and of its transpose. -/
theorem PivotedQR.factorize_revealsRank {A : DenseMatrix (Exact K)}
    (hA : ∀ c ∈ A.columns, Numbers c) :
    let qr := factorize A
    let k := min A.height A.width
    ∃ (R : Matrix (Fin k) (Fin A.width) K) (d : Fin k → K),
      (∀ (i : Fin k) (j : Fin A.width), qr.triangle.entry i j = .number (R i j)) ∧
      qr.diagonal = numbers (List.ofFn d) ∧
      (∀ i j, i ≤ j → |d j| ≤ |d i|) ∧
      (∀ (i : Fin k) (j : Fin A.width), (i : Nat) ≤ j →
        ∑ r : Fin k with i ≤ r ∧ (r : Nat) ≤ j, R r j ^ 2 ≤ d i ^ 2) ∧
      (∀ t, qr.rankAbove t = qr.diagonal.countP fun x => t < Scalar.abs x) ∧
      qr.rankAbove 0 = A.toMatrix.rank ∧
      (factorize A.transpose).rankAbove 0 = A.toMatrix.rank := by
  intro qr k
  have hentry := DenseMatrix.entry_toMatrix hA
  obtain ⟨Q, σ, h, hdescending⟩ := exists_descending rfl rfl hentry
  have hantitone : ∀ i j : Fin k, i ≤ j →
      |triangularFactor Q A.toMatrix σ (j.castLE (min_le_left _ _))
          (j.castLE (min_le_right _ _))| ≤
        |triangularFactor Q A.toMatrix σ (i.castLE (min_le_left _ _))
          (i.castLE (min_le_right _ _))| :=
    fun i j hij => hdescending.abs_le rfl hij hij
  refine ⟨fun i j => triangularFactor Q A.toMatrix σ (i.castLE (min_le_left _ _)) j, _,
    h.entry_triangle, h.diagonal_eq, hantitone, fun i j hij => ?sum, fun t => ?count,
    rankAbove_zero rfl rfl hentry, ?transposed⟩
  case sum =>
    let emb : Fin k ↪ Fin A.height := Fin.castLEEmb (min_le_left _ _)
    calc ∑ r : Fin k with i ≤ r ∧ (r : Nat) ≤ j, triangularFactor Q A.toMatrix σ (emb r) j ^ 2
        = ∑ r ∈ (Finset.univ.filter fun r : Fin k => i ≤ r ∧ (r : Nat) ≤ j).map emb,
            triangularFactor Q A.toMatrix σ r j ^ 2 :=
          (Finset.sum_map _ emb fun r => triangularFactor Q A.toMatrix σ r j ^ 2).symm
      _ ≤ _ := hdescending.sum_le rfl hij fun r hr => by
        obtain ⟨r', hmem, rfl⟩ := Finset.mem_map.1 hr
        have hmem := (Finset.mem_filter.1 hmem).2
        exact hmem.1
  case count =>
    refine length_takeWhile_eq_countP ?_
    rw [h.diagonal_eq, numbers, List.pairwise_map, List.pairwise_ofFn]
    intro i j hij ht
    rw [decide_eq_true_eq] at ht ⊢
    cases t with
    | undefined => exact ht
    | number t => exact lt_of_lt_of_le (b := |_|) ht (hantitone i j hij.le)
  case transposed =>
    have hentry' : ∀ (i : Fin A.width) (j : Fin A.height),
        A.transpose.entry i j = .number (A.toMatrixᵀ i j) :=
      fun i j => (DenseMatrix.entry_transpose i.2 j.2).trans (hentry j i)
    exact (rankAbove_zero rfl DenseMatrix.width_ofFn hentry').trans A.toMatrix.rank_transpose

end

/-- All columns are multiples of one. -/
theorem toMatrix_dependentColumns :
    dependentColumns.toMatrix = vecMulVec ![1, 1] ![0, 1, -1] := by
  have hentry : ∀ (i : Fin 2) (j : Fin 3),
      (dependentColumns.entry i j).toNumber = ![1, 1] i * ![0, 1, -1] j := by
    intro i j
    fin_cases i <;> fin_cases j <;>
      norm_num [DenseMatrix.entry, dependentColumns, numbers, Exact.toNumber]
  exact Matrix.ext hentry

/-- The rank is that of one column. -/
theorem rank_dependentColumns : dependentColumns.toMatrix.rank = 1 := by
  let Z : Matrix (Fin 2) (Fin 3) ℝ := vecMulVec ![1, 1] ![0, 1, -1]
  have hdet : (Z.submatrix ![0] ![1]).det ≠ 0 := by
    rw [det_fin_one]
    norm_num [Z, vecMulVec]
  have hone := rank_of_det_ne_zero hdet
  rw [Fintype.card_fin] at hone
  rw [toMatrix_dependentColumns]
  exact le_antisymm (rank_vecMulVec_le _ _) (hone.ge.trans (Z.rank_submatrix_le _ _))

/-- One diagonal entry is above zero, both in the factorization of the matrix and in that of its
transpose. -/
theorem PivotedQR.rankAbove_dependentColumns :
    (∀ c ∈ dependentColumns.columns, Numbers c) ∧ (factorize dependentColumns).rankAbove 0 = 1 ∧
      (factorize dependentColumns.transpose).rankAbove 0 = 1 := by
  obtain ⟨_, _, _, _, _, _, _, hrank, htransposed⟩ :=
    factorize_revealsRank numbers_dependentColumns
  exact ⟨numbers_dependentColumns, hrank.trans rank_dependentColumns,
    htransposed.trans rank_dependentColumns⟩

end SketchSolver
