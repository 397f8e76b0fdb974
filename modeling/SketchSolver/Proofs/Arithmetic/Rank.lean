import Mathlib.Data.List.GetD
import Mathlib.LinearAlgebra.Matrix.Rank
import SketchSolver.Matrix.Dense
import SketchSolver.Proofs.Arithmetic.Numbers

/-!
# The rank of an exact matrix

In exact arithmetic a rank can be computed as it is defined (`IsExactRank`). Elimination does so: it
takes the columns one after another, and where some row has an entry that is not zero, subtracts
multiples of that row from all rows (`Exact.rank`). The row itself becomes zero and stays in the
list, so a column changes the row space by the span of one row or not at all
(`finrank_span_rest`), and elimination counts the dimension of the row space
(`isExactRank_rank`).
-/

namespace SketchSolver

/-- The function computes the rank of every matrix that has a number in every entry. -/
def IsExactRank [Field K] [LinearOrder K] [PartialFunctions K]
    (rankOf : DenseMatrix (Exact K) → Nat) : Prop :=
  ∀ (m n : Nat) (M : Matrix (Fin m) (Fin n) K) (A : DenseMatrix (Exact K)),
    A.height = m → A.width = n → (∀ (i : Fin m) (j : Fin n), A.entry i j = .number (M i j)) →
      rankOf A = M.rank

section
variable [Field K]

/-! ## Rows as vectors -/

/-- The first `n` entries of a row. -/
def rowVector (n : Nat) (r : List K) : Fin n → K :=
  fun j => r.getD j 0

/-- The space of the rows of a list. -/
def rowSpace (n : Nat) (rows : List (List K)) : Submodule K (Fin n → K) :=
  Submodule.span K {v | ∃ r ∈ rows, rowVector n r = v}

/-- A row without its first entry, less as much of another row as makes up for that entry. -/
def subtractRow [DecidableEq K] (n : Nat) (p r : List K) : List K :=
  (List.range n).map fun j => r.getD (j + 1) 0 - r.getD 0 0 / p.getD 0 0 * p.getD (j + 1) 0

/-- What is left of a vector without its first entry, less as much of `v` as makes up for that
entry. -/
def rest (v : Fin (n + 1) → K) : (Fin (n + 1) → K) →ₗ[K] (Fin n → K) where
  toFun w j := w j.succ - w 0 / v 0 * v j.succ
  map_add' w w' := by
    funext j
    simp only [Pi.add_apply]
    ring
  map_smul' c w := by
    funext j
    simp only [Pi.smul_apply, smul_eq_mul, RingHom.id_apply]
    ring

/-- What a pivot leaves of a row is the row of what is computed for it. -/
theorem rest_rowVector [DecidableEq K] (n : Nat) (p r : List K) :
    rest (rowVector (n + 1) p) (rowVector (n + 1) r) = rowVector n (subtractRow n p r) := by
  funext j
  simp [rest, rowVector, subtractRow]

/-- Nothing is left of the multiples of `v`, and of no other vector. -/
theorem ker_rest {v : Fin (n + 1) → K} (hv : v 0 ≠ 0) :
    LinearMap.ker (rest v) = Submodule.span K {v} := by
  ext w
  rw [LinearMap.mem_ker, Submodule.mem_span_singleton]
  constructor
  · intro hw
    refine ⟨w 0 / v 0, funext fun j => ?_⟩
    rw [Pi.smul_apply, smul_eq_mul]
    refine Fin.cases (div_mul_cancel₀ _ hv) (fun j => ?_) j
    exact (sub_eq_zero.1 (congrFun hw j)).symm
  · rintro ⟨c, rfl⟩
    funext j
    simp only [rest, LinearMap.coe_mk, AddHom.coe_mk, Pi.smul_apply, smul_eq_mul, Pi.zero_apply]
    rw [mul_div_cancel_right₀ _ hv, sub_self]

/-- A space has one dimension more than what is left of it, if `v` is in it. -/
theorem finrank_map_rest {V : Submodule K (Fin (n + 1) → K)} {v : Fin (n + 1) → K} (hmem : v ∈ V)
    (hv : v 0 ≠ 0) : Module.finrank K (V.map (rest v)) + 1 = Module.finrank K V := by
  have hsum := LinearMap.finrank_range_add_finrank_ker ((rest v).domRestrict V)
  have hrange : LinearMap.range ((rest v).domRestrict V) = V.map (rest v) :=
    LinearMap.range_domRestrict V (rest v)
  have hker : LinearMap.ker ((rest v).domRestrict V) = Submodule.span K {⟨v, hmem⟩} := by
    ext ⟨w, hw⟩
    rw [LinearMap.mem_ker, LinearMap.domRestrict_apply, ← LinearMap.mem_ker, ker_rest hv,
      Submodule.mem_span_singleton, Submodule.mem_span_singleton]
    simp [Subtype.ext_iff]
  have hne : (⟨v, hmem⟩ : V) ≠ 0 := by
    intro hzero
    exact hv (congrFun (congrArg Subtype.val hzero) 0)
  rw [hrange, hker, finrank_span_singleton hne] at hsum
  exact hsum

/-- A space of vectors whose first entry is zero has the dimension of what is left of it. -/
theorem finrank_map_rest_zero {V : Submodule K (Fin (n + 1) → K)} (hzero : ∀ w ∈ V, w 0 = 0) :
    Module.finrank K (V.map (rest 0)) = Module.finrank K V := by
  rw [← LinearMap.range_domRestrict]
  refine LinearMap.finrank_range_of_inj ((injective_iff_map_eq_zero _).2 ?_)
  rintro ⟨w, hw⟩ hrest
  refine Subtype.ext (funext fun j => Fin.cases (hzero w hw) (fun j => ?_) j)
  have hj := congrFun hrest j
  simpa [rest] using hj

/-! ## Elimination -/

variable [DecidableEq K]

/-- How many rows of a list are independent in their first `n` entries. -/
def rowRank : (n : Nat) → List (List K) → Nat
  | 0, _ => 0
  | n + 1, rows =>
    match rows.find? (·.getD 0 0 != 0) with
    | some p => rowRank n (rows.map (subtractRow n p)) + 1
    | none => rowRank n (rows.map (subtractRow n []))

/-- Subtracting from every row leaves the space of what is left. -/
theorem rowSpace_map (n : Nat) (p : List K) (rows : List (List K)) :
    rowSpace n (rows.map (subtractRow n p)) =
      (rowSpace (n + 1) rows).map (rest (rowVector (n + 1) p)) := by
  rw [rowSpace, rowSpace, Submodule.map_span]
  refine congrArg (Submodule.span K) (Set.ext fun v => ?_)
  constructor
  · rintro ⟨_, hmem, rfl⟩
    obtain ⟨r, hr, rfl⟩ := List.mem_map.1 hmem
    exact ⟨_, ⟨r, hr, rfl⟩, rest_rowVector n p r⟩
  · rintro ⟨_, ⟨r, hr, rfl⟩, rfl⟩
    exact ⟨_, List.mem_map_of_mem hr, (rest_rowVector n p r).symm⟩

/-- Elimination counts the dimension of the row space. -/
theorem rowRank_eq : ∀ (n : Nat) (rows : List (List K)),
    rowRank n rows = Module.finrank K (rowSpace n rows)
  | 0, rows => (Module.finrank_zero_of_subsingleton).symm
  | n + 1, rows => by
    rw [rowRank]
    cases hfind : rows.find? (·.getD 0 0 != 0) with
    | some p =>
      have hp : p.getD 0 0 ≠ 0 := by simpa using List.find?_some hfind
      have hmem : rowVector (n + 1) p ∈ rowSpace (n + 1) rows :=
        Submodule.subset_span ⟨p, List.mem_of_find?_eq_some hfind, rfl⟩
      simp only
      rw [rowRank_eq n, rowSpace_map, finrank_map_rest hmem hp]
    | none =>
      have hnil : rowVector (n + 1) ([] : List K) = 0 := rfl
      have hzero : ∀ w ∈ rowSpace (n + 1) rows, w 0 = 0 := by
        intro w hw
        have hle : rowSpace (n + 1) rows ≤ LinearMap.ker (LinearMap.proj 0) := by
          refine Submodule.span_le.2 ?_
          rintro _ ⟨r, hr, rfl⟩
          simpa [rowVector] using List.find?_eq_none.1 hfind r hr
        exact hle hw
      simp only
      rw [rowRank_eq n, rowSpace_map, hnil, finrank_map_rest_zero hzero]

/-- No more rows are independent than they have entries. -/
theorem rowRank_le : ∀ (n : Nat) (rows : List (List K)), rowRank n rows ≤ n
  | 0, _ => Nat.le_refl 0
  | n + 1, rows => by
    rw [rowRank]
    split
    · exact Nat.succ_le_succ (rowRank_le n _)
    · exact (rowRank_le n _).trans (Nat.le_succ n)

end

namespace Exact

variable [Field K] [LinearOrder K] [PartialFunctions K]

/-- The number, or zero if there is none. -/
def toNumber : Exact K → K
  | .number x => x
  | .undefined => 0

/-- The rank of a matrix by elimination. -/
def rank (A : DenseMatrix (Exact K)) : Nat :=
  rowRank A.width (A.toRows.map fun r => r.map toNumber)

/-- Elimination computes the rank. -/
theorem isExactRank_rank : IsExactRank (K := K) rank := by
  intro m n M A hheight hwidth hentry
  rw [rank, rowRank_eq, Matrix.rank_eq_finrank_span_row, hwidth]
  have hrow : ∀ i : Fin m,
      rowVector n (A.columns.map (toNumber ∘ fun c => c.getD i 0)) = M.row i := by
    intro i
    funext j
    obtain ⟨c, hc⟩ : ∃ c, A.columns[(j : Nat)]? = some c :=
      ⟨_, List.getElem?_eq_getElem (hwidth.symm ▸ j.2 : (j : Nat) < A.width)⟩
    have hij := hentry i j
    rw [DenseMatrix.entry, List.getD_eq_getElem?_getD (l := A.columns), hc, Option.getD_some] at hij
    rw [rowVector, List.getD_eq_getElem?_getD, List.getElem?_map, hc, Option.map_some,
      Option.getD_some, Function.comp_apply, hij]
    rfl
  refine congrArg (fun V : Submodule K (Fin n → K) => Module.finrank K V)
    (congrArg (Submodule.span K) (Set.ext fun v => ?_))
  simp only [DenseMatrix.toRows, List.map_map, List.mem_map, List.mem_range, Set.mem_ofPred_eq,
    exists_exists_and_eq_and, Function.comp_apply, hheight]
  constructor
  · rintro ⟨i, hi, rfl⟩
    exact ⟨⟨i, hi⟩, (hrow ⟨i, hi⟩).symm⟩
  · rintro ⟨i, rfl⟩
    exact ⟨i, i.2, hrow i⟩

end Exact

/-! ## Entries -/

namespace DenseMatrix

/-- A matrix has the entries that it was made of. -/
theorem entry_ofFn [Zero α] {height width : Nat} {f : Nat → Nat → α} {i j : Nat}
    (hi : i < height) (hj : j < width) : (ofFn height width f).entry i j = f i j := by
  simp [entry, ofFn, List.getD_eq_getElem?_getD, hi, hj]

/-- A matrix has the width it is made with. -/
theorem width_ofFn {height width : Nat} {f : Nat → Nat → α} :
    (ofFn height width f).width = width := by
  simp [ofFn, DenseMatrix.width]

/-- The entries of the transpose. -/
theorem entry_transpose [Zero α] {A : DenseMatrix α} {i j : Nat} (hi : i < A.width)
    (hj : j < A.height) : A.transpose.entry i j = A.entry j i :=
  entry_ofFn hi hj

variable [Field K] [LinearOrder K] [PartialFunctions K] {A : DenseMatrix (Exact K)}

/-- The matrix of the entries, an undefined one counting as zero. -/
def toMatrix (A : DenseMatrix (Exact K)) : Matrix (Fin A.height) (Fin A.width) K :=
  .of fun i j => (A.entry i j).toNumber

/-- An entry of a matrix of numbers is that of the matrix over the field. -/
theorem entry_toMatrix (hA : ∀ c ∈ A.columns, Numbers c) (i : Fin A.height) (j : Fin A.width) :
    A.entry i j = .number (A.toMatrix i j) := by
  have hj : (j : Nat) < A.columns.length := j.2
  have hmem : A.columns[(j : Nat)] ∈ A.columns := List.getElem_mem hj
  have hi : (i : Nat) < A.columns[(j : Nat)].length := (A.length_of_mem _ hmem).symm ▸ i.2
  have hentry : A.entry i j = A.columns[(j : Nat)][(i : Nat)] := by
    rw [entry, List.getD_eq_getElem _ _ hj, List.getD_eq_getElem _ _ hi]
  obtain ⟨x, hx⟩ := hA _ hmem _ (List.getElem_mem hi)
  rw [toMatrix, Matrix.of_apply, hentry, hx]
  rfl

end DenseMatrix

end SketchSolver
