import SketchSolver.Proofs.Arithmetic.Sparse

/-!
# The dense form of a sparse matrix

Triplets are given in any order, with positions that may repeat. In exact arithmetic the dense form
of the matrix made of them has at every position the sum of the triplets there, so it is the same
for every order of the triplets, and it is the same whether the matrix is stored by columns or by
rows (`SparseMatrix.toDense_ofTriplets`).
-/

namespace SketchSolver

attribute [local instance] LawfulScalar.addCommMonoid

namespace DenseMatrix

/-- Matrices of one shape are the same if their entries are. -/
theorem ofFn_congr {height width : Nat} {f g : Nat → Nat → α}
    (h : ∀ i < height, ∀ j < width, f i j = g i j) : ofFn height width f = ofFn height width g := by
  unfold ofFn
  congr 1
  exact List.map_congr_left fun j hj => List.map_congr_left fun i hi =>
    h i (List.mem_range.1 hi) j (List.mem_range.1 hj)

/-- There are no entries outside a matrix. -/
theorem entry_ofFn_of_not_lt [Zero α] {height width : Nat} {f : Nat → Nat → α} {i j : Nat}
    (h : ¬ (i < height ∧ j < width)) : (ofFn height width f).entry i j = 0 := by
  rw [entry, ofFn, List.getD_eq_getElem?_getD, List.getD_eq_getElem?_getD, List.getElem?_map]
  by_cases hj : j < width
  · simp [hj, Nat.not_lt.1 fun hi => h ⟨hi, hj⟩]
  · simp [hj]

end DenseMatrix

namespace SparseMatrix

/-- The values of the triplets at a position. -/
def valuesAt (ts : List (Triplet α)) (row column : Nat) : List α :=
  (ts.filter fun t => t.row = row ∧ t.column = column).map (·.value)

/-- Where all triplets lie inside a matrix there is one that is made of them. -/
theorem ofTriplets?_eq_some [Add α] {height width : Nat} {ts : List (Triplet α)}
    (hinside : ∀ t ∈ ts, t.row < height ∧ t.column < width) :
    ofTriplets? height width ts = some (ofTriplets height width ts) :=
  if_pos (List.all_eq_true.2 fun t ht => by simpa using hinside t ht)

/-- Outside a matrix there are no triplets. -/
theorem valuesAt_eq_nil {height width : Nat} {ts : List (Triplet α)}
    (hinside : ∀ t ∈ ts, t.row < height ∧ t.column < width) {i j : Nat}
    (hij : ¬ (i < height ∧ j < width)) : valuesAt ts i j = [] := by
  refine List.map_eq_nil_iff.2 (List.filter_eq_nil_iff.2 fun t ht heq => hij ?_)
  obtain ⟨rfl, rfl⟩ := of_decide_eq_true heq
  exact hinside t ht

section
variable {A : SparseMatrix α} (h : A.StoresColumns)
include h

/-- A matrix whose columns are stored is stored by rows afterwards. -/
theorem StoresColumns.storage_storedByRows : A.storedByRows.storage = .byRows := by
  unfold storedByRows
  rw [h.storage]

/-- Storing a matrix by rows keeps its height. -/
theorem StoresColumns.height_storedByRows : A.storedByRows.height = A.height := by
  unfold storedByRows
  rw [h.storage]

/-- Storing a matrix by rows keeps its width. -/
theorem StoresColumns.width_storedByRows : A.storedByRows.width = A.width := by
  unfold storedByRows
  rw [h.storage]

end

variable [Scalar α] [LawfulScalar α]

/-- The values at a position, summed up. -/
theorem sum_valuesAt (ts : List (Triplet α)) (i j : Nat) :
    (valuesAt ts i j).sum =
      (ts.map fun t => if t.row = i ∧ t.column = j then t.value else 0).sum := by
  rw [List.sum_map_ite, List.sum_eq_zero (List.forall_mem_map.2 fun _ _ => rfl), add_zero]
  rfl

/-- The sums of the triplets at all positions are the dense form of the matrix made of them. -/
theorem toDense_ofTriplets_eq (height width : Nat) (ts : List (Triplet α)) :
    (ofTriplets height width ts).toDense =
      .ofFn height width fun i j => (valuesAt ts i j).sum := by
  refine DenseMatrix.ofFn_congr fun i _ j (hj : j < width) => ?_
  rw [entry_ofTriplets ts i hj, sum_valuesAt]

/-- The values at a position have one sum, in whatever order the triplets are given. -/
theorem sum_valuesAt_of_perm {ts ts' : List (Triplet α)} (h : ts'.Perm ts) (i j : Nat) :
    (valuesAt ts' i j).sum = (valuesAt ts i j).sum :=
  ((h.filter _).map _).sum_eq

/-- Storing a matrix by rows keeps its dense form. -/
theorem StoresColumns.toDense_storedByRows {A : SparseMatrix α} (h : A.StoresColumns) :
    A.storedByRows.toDense = A.toDense := by
  rw [toDense, toDense, h.height_storedByRows, h.width_storedByRows]
  refine DenseMatrix.ofFn_congr fun i hi j _ => ?_
  rw [entry, h.storage_storedByRows, ← h.lineEntry_storedRow i j, ← h.getD_storedByRows hi]

/-- The dense form of the matrix made of triplets has the sum of the triplets at each position, zero
where there are none. It depends neither on the order of the triplets nor on whether rows or columns
are stored. -/
theorem toDense_ofTriplets {height width : Nat} {ts : List (Triplet α)}
    (hinside : ∀ t ∈ ts, t.row < height ∧ t.column < width) :
    ∃ A : SparseMatrix α, ofTriplets? height width ts = some A ∧
      A.toDense.height = height ∧ A.toDense.width = width ∧
      (∀ i j, A.toDense.entry i j = (valuesAt ts i j).sum) ∧
      (∀ ts', ts'.Perm ts → (ofTriplets? height width ts').map toDense = some A.toDense) ∧
      A.storage = .byColumns ∧ A.storedByRows.storage = .byRows ∧
      A.storedByRows.toDense = A.toDense := by
  have hcolumns := storesColumns_ofTriplets height width ts
  refine ⟨_, ofTriplets?_eq_some hinside, rfl, DenseMatrix.width_ofFn, fun i j => ?_,
    fun ts' hperm => ?_, rfl, hcolumns.storage_storedByRows, hcolumns.toDense_storedByRows⟩
  · rw [toDense_ofTriplets_eq]
    by_cases hij : i < height ∧ j < width
    · exact DenseMatrix.entry_ofFn hij.1 hij.2
    · rw [DenseMatrix.entry_ofFn_of_not_lt hij, valuesAt_eq_nil hinside hij]
      rfl
  · have hinside' : ∀ t ∈ ts', t.row < height ∧ t.column < width := fun t ht =>
      hinside t (hperm.mem_iff.1 ht)
    rw [ofTriplets?_eq_some hinside', Option.map_some, toDense_ofTriplets_eq,
      toDense_ofTriplets_eq]
    simp only [sum_valuesAt_of_perm hperm]

/-- Two triplets at one position, two at another that cancel, and one more below the first row. -/
def repeatedTriplets : List (Triplet (Exact ℚ)) :=
  [⟨0, 2, .number 3⟩, ⟨1, 0, .number (-1)⟩, ⟨0, 2, .number 4⟩, ⟨1, 1, .number 5⟩,
    ⟨1, 1, .number (-5)⟩]

/-- The entry that is given twice is a sum, the one that cancels is stored, and in another order,
or by rows, it is the same matrix. -/
theorem toDense_repeatedTriplets :
    (∀ t ∈ repeatedTriplets, t.row < 2 ∧ t.column < 3) ∧
    repeatedTriplets.reverse.Perm repeatedTriplets ∧
    ∃ A, ofTriplets? 2 3 repeatedTriplets = some A ∧
      A.toDense.entry 0 2 = .number 7 ∧ A.toDense.entry 1 0 = .number (-1) ∧
      A.toDense.entry 0 1 = .number 0 ∧ A.toDense.entry 1 1 = .number 0 ∧ A.storedCount = 3 ∧
      (ofTriplets? 2 3 repeatedTriplets.reverse).map toDense = some A.toDense ∧
      A.storedByRows.toDense = A.toDense := by
  have hinside : ∀ t ∈ repeatedTriplets, t.row < 2 ∧ t.column < 3 := by decide +kernel
  have hperm := List.reverse_perm repeatedTriplets
  obtain ⟨A, hA, _, _, hentry, horder, _, _, hrows⟩ := toDense_ofTriplets hinside
  refine ⟨hinside, hperm, A, hA, ?_, ?_, ?_, ?_, ?_, horder _ hperm, hrows⟩
  · rw [hentry]
    decide +kernel
  · rw [hentry]
    decide +kernel
  · rw [hentry]
    decide +kernel
  · rw [hentry]
    decide +kernel
  · obtain rfl := Option.some.inj ((ofTriplets?_eq_some hinside).symm.trans hA)
    decide +kernel

end SparseMatrix

end SketchSolver
