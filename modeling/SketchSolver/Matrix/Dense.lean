import SketchSolver.Scalar

/-!
# Dense matrices

A matrix is the list of its columns, all of one length. A factorization that pivots on columns
works on this list directly; everything else builds matrices by `DenseMatrix.ofFn` and reads them
by `DenseMatrix.entry`.
-/

namespace SketchSolver

/-- A matrix, column by column. -/
structure DenseMatrix (α : Type u) where
  height : Nat
  columns : List (List α)
  length_of_mem : ∀ c ∈ columns, c.length = height

namespace DenseMatrix

/-- The number of columns. -/
def width (A : DenseMatrix α) : Nat :=
  A.columns.length

/-- The matrix with the given entries. -/
def ofFn (height width : Nat) (entry : (row column : Nat) → α) : DenseMatrix α where
  height := height
  columns := (List.range width).map fun j => (List.range height).map fun i => entry i j
  length_of_mem c hc := by
    obtain ⟨j, -, rfl⟩ := List.mem_map.1 hc
    simp

/-- The matrix whose entries are listed row by row. Entries that the list lacks are zero. -/
def ofRowMajor [Zero α] (height width : Nat) (entries : List α) : DenseMatrix α :=
  ofFn height width fun i j => entries.getD (i * width + j) 0

/-- The entry at a position, zero outside the matrix. -/
def entry [Zero α] (A : DenseMatrix α) (row column : Nat) : α :=
  (A.columns.getD column []).getD row 0

/-- The matrix with rows and columns exchanged. -/
def transpose [Zero α] (A : DenseMatrix α) : DenseMatrix α :=
  ofFn A.width A.height fun i j => A.entry j i

/-- The rows of the matrix, from the top. -/
def toRows [Zero α] (A : DenseMatrix α) : List (List α) :=
  (List.range A.height).map fun i => A.columns.map fun c => c.getD i 0

end DenseMatrix

end SketchSolver
