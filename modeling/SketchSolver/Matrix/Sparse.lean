import SketchSolver.Matrix.Dense

/-!
# Sparse matrices

A sparse matrix keeps, for each of its columns or for each of its rows, the entries that are
stored there by ascending position. An entry that is not stored is zero. A stored entry may be
zero as well: what is stored is decided by who builds the matrix, not by the values.

Matrices are built from triplets in any order, and triplets at one position are added up.
-/

namespace SketchSolver

/-- A value at a position of a matrix. -/
structure Triplet (α : Type u) where
  row : Nat
  column : Nat
  value : α
deriving Repr

/-- What a line of stored entries runs along. -/
inductive Storage where
  | byColumns
  | byRows
deriving DecidableEq, Repr

/-- A matrix of which some entries are stored. -/
structure SparseMatrix (α : Type u) where
  storage : Storage
  height : Nat
  width : Nat
  /-- The stored entries of each column, or of each row, with their positions ascending. -/
  lines : List (List (Nat × α))
deriving Repr

namespace SparseMatrix

/-- A line with a value added at a position. -/
def addAt [Add α] (position : Nat) (value : α) : List (Nat × α) → List (Nat × α)
  | [] => [(position, value)]
  | (p, v) :: rest =>
    if position < p then (position, value) :: (p, v) :: rest
    else if position = p then (p, v + value) :: rest
    else (p, v) :: addAt position value rest

/-- The matrix that stores nothing. -/
def empty (height width : Nat) : SparseMatrix α where
  storage := .byRows
  height := height
  width := width
  lines := List.replicate height []

/-- The matrix that has the sum of the triplets at every position that some triplet names. -/
def ofTriplets [Add α] (height width : Nat) (triplets : List (Triplet α)) : SparseMatrix α where
  storage := .byColumns
  height := height
  width := width
  lines := (List.range width).map fun j =>
    (triplets.filter (·.column == j)).foldl (fun line t => addAt t.row t.value line) []

/-- `ofTriplets` for triplets that may lie outside the matrix, in which case there is none. -/
def ofTriplets? [Add α] (height width : Nat) (triplets : List (Triplet α)) :
    Option (SparseMatrix α) :=
  if triplets.all fun t => t.row < height && t.column < width then
    some (ofTriplets height width triplets)
  else none

/-- The stored entries, line by line. -/
def triplets (A : SparseMatrix α) : List (Triplet α) :=
  A.lines.zipIdx.flatMap fun (line, k) =>
    line.map fun (p, v) =>
      match A.storage with
      | .byColumns => ⟨p, k, v⟩
      | .byRows => ⟨k, p, v⟩

/-- How many entries are stored. -/
def storedCount (A : SparseMatrix α) : Nat :=
  A.lines.flatten.length

/-- The entry at a position of a line. -/
def lineEntry [Zero α] [Add α] (line : List (Nat × α)) (position : Nat) : α :=
  line.foldl (fun s (p, v) => if p == position then s + v else s) 0

/-- The entry at a position, stored or not. -/
def entry [Zero α] [Add α] (A : SparseMatrix α) (row column : Nat) : α :=
  match A.storage with
  | .byColumns => lineEntry (A.lines.getD column []) row
  | .byRows => lineEntry (A.lines.getD row []) column

/-- The same matrix with all entries. -/
def toDense [Zero α] [Add α] (A : SparseMatrix α) : DenseMatrix α :=
  .ofFn A.height A.width A.entry

/-- The same matrix stored by rows. -/
def storedByRows (A : SparseMatrix α) : SparseMatrix α :=
  match A.storage with
  | .byRows => A
  | .byColumns =>
    { A with
      storage := .byRows
      lines := (List.range A.height).map fun i =>
        A.lines.zipIdx.filterMap fun (column, j) => (column.lookup i).map fun v => (j, v) }

/-- The product of two lines: the sum over the positions stored in both, by ascending position. -/
def lineProduct [Zero α] [Add α] [Mul α] (l r : List (Nat × α)) : α :=
  l.foldl (fun s (p, x) =>
    match r.lookup p with
    | some y => s + x * y
    | none => s) 0

/-- The product of the matrix with its transpose: the products of its rows. -/
def timesTranspose [Zero α] [Add α] [Mul α] (A : SparseMatrix α) : DenseMatrix α :=
  let rows := A.storedByRows.lines
  .ofFn A.height A.height fun i j => lineProduct (rows.getD i []) (rows.getD j [])

end SparseMatrix

end SketchSolver
