import SketchSolver.Matrix.Dense

/-!
# QR factorization with column pivoting

A matrix is brought to upper triangular form by one reflection per row. Each step takes, of the
columns that are left, the one whose open part (the entries not yet settled) is longest, exchanges
it with the first one, and reflects it onto a multiple of the first unit vector; the same
reflection is applied to the other columns. Their first open entries are then settled, and the
rest of the matrix, one row and one column smaller, is treated in the same way. So the diagonal
never grows in magnitude, and the numerical rank is the number of diagonal entries above a
threshold.

The reflection of a vector `x` along `v` is `x - w (v · x) v`, where `v` has a leading one and
the weight `w` is `2 / (v · v)`.
-/

namespace SketchSolver

/-- A reflection along the vector with a leading one and the given tail. -/
structure Reflection (α : Type u) where
  weight : α
  tail : List α
deriving Repr

/-- A column of a matrix that is being brought to triangular form. -/
structure PivotedColumn (α : Type u) where
  /-- Which column of the matrix it was. -/
  source : Nat
  /-- The entries that are settled, from the top. -/
  settled : List α
  /-- The entries below them. -/
  openPart : List α
deriving Repr

/-- A QR factorization with column pivoting. -/
structure PivotedQR (α : Type u) where
  /-- The number of rows of the matrix. -/
  height : Nat
  /-- The reflections, in the order in which they were applied. -/
  reflections : List (Reflection α)
  /-- The columns of the triangular factor in pivot order. -/
  columns : List (PivotedColumn α)
  /-- The largest length of a column of the matrix. -/
  largestNorm : α
deriving Repr

/-! ## The shape of a factorization -/

namespace PivotedQR

/-- The number of columns of the matrix. -/
def width (qr : PivotedQR α) : Nat :=
  qr.columns.length

/-- The length of the diagonal. -/
def diagonalLength (qr : PivotedQR α) : Nat :=
  min qr.height qr.width

/-- Which column of the matrix stands at each place. -/
def permutation (qr : PivotedQR α) : List Nat :=
  qr.columns.map (·.source)

end PivotedQR

/-! ## Reflections -/

variable [Scalar α]

/-- The sum of the squares of the entries. -/
def squaredNorm (xs : List α) : α :=
  xs.foldl (fun s x => s + x * x) 0

namespace Reflection

/-- The entries `ys` less `s` times the entries of the tail at the same places. -/
def subtract (s : α) : (tail ys : List α) → List α
  | v :: vs, y :: ys => (y - s * v) :: subtract s vs ys
  | _, ys => ys

/-- The image of a vector. -/
def apply (r : Reflection α) : List α → List α
  | [] => []
  | y :: ys =>
    let s := ((r.tail.zip ys).foldl (fun s (v, y) => s + v * y) y) * r.weight
    (y - s) :: subtract s r.tail ys

/-- The reflection that sends the vector with the entries `x` and `xs` and the length `length` to
a multiple of the first unit vector, and that multiple. The sign is the one opposite to the sign
of `x`, so nothing cancels in `x + sign * length`. -/
def along (length x : α) (xs : List α) : Reflection α × α :=
  let sign : α := if 0 ≤ x then 1 else -1
  let lead := x + sign * length
  let tail := xs.map (· / lead)
  let norm := tail.foldl (fun s v => s + v * v) 1
  (⟨((2 : Nat) : α) / norm, tail⟩, -sign * length)

end Reflection

namespace PivotedColumn

/-- The entry in a row, counted from the top of the column. -/
def entry (c : PivotedColumn α) (row : Nat) : α :=
  (c.settled ++ c.openPart).getD row 0

/-- The column reflected, with its first open entry settled. -/
def reflect (r : Reflection α) (c : PivotedColumn α) : PivotedColumn α :=
  match r.apply c.openPart with
  | [] => c
  | y :: ys => { c with settled := c.settled ++ [y], openPart := ys }

end PivotedColumn

/-! ## Factorization -/

/-- The place of the column with the longest open part, the first of them if there are several,
and the square of its length. The square is negative if there is no column to choose, or none
with a length that compares with anything. -/
def longestColumn (columns : List (PivotedColumn α)) : Nat × α :=
  columns.zipIdx.foldl
    (fun (place, best) (c, k) =>
      let s := squaredNorm c.openPart
      if best < s then (k, s) else (place, best))
    (0, -1)

/-- The list with its first element exchanged with the one at the given place. -/
def exchangeFirst (place : Nat) : List β → List β
  | [] => []
  | x :: rest =>
    match place with
    | 0 => x :: rest
    | k + 1 =>
      match rest[k]? with
      | some y => y :: rest.set k x
      | none => x :: rest

/-- Brings the columns to triangular form in the given number of steps, or in fewer if the open
parts of all columns vanish before. -/
def triangularize : (steps : Nat) → List (PivotedColumn α) →
    List (Reflection α) × List (PivotedColumn α)
  | 0, columns => ([], columns)
  | steps + 1, columns =>
    let (place, best) := longestColumn columns
    let length := Scalar.sqrt best
    match exchangeFirst place columns with
    | [] => ([], [])
    | pivot :: others =>
      if length == 0 then ([], pivot :: others)
      else
        match pivot.openPart with
        | [] => ([], pivot :: others)
        | x :: xs =>
          let (r, diagonal) := Reflection.along length x xs
          let pivot := { pivot with settled := pivot.settled ++ [diagonal], openPart := [] }
          let (reflections, columns) := triangularize steps (others.map (·.reflect r))
          (r :: reflections, pivot :: columns)

namespace PivotedQR

/-- The factorization of a matrix. A column whose length does not compare with zero leaves
`largestNorm` as it is. -/
def factorize (A : DenseMatrix α) : PivotedQR α :=
  let columns := A.columns.zipIdx.map fun (c, j) => ⟨j, [], c⟩
  let (reflections, columns) := triangularize (min A.height A.width) columns
  { height := A.height
    reflections := reflections
    columns := columns
    largestNorm := A.columns.foldl (fun largest c =>
      let norm := Scalar.sqrt (squaredNorm c)
      if largest < norm then norm else largest) 0 }

/-! ## The triangular factor -/

/-- The entry of the triangular factor at a position on or above the diagonal. -/
def upperEntry (qr : PivotedQR α) (row column : Nat) : α :=
  match qr.columns[column]? with
  | some c => c.entry row
  | none => 0

/-- The triangular factor. -/
def triangle (qr : PivotedQR α) : DenseMatrix α :=
  .ofFn qr.diagonalLength qr.width fun i j => if i ≤ j then qr.upperEntry i j else 0

/-- The diagonal of the triangular factor. -/
def diagonal (qr : PivotedQR α) : List α :=
  (List.range qr.diagonalLength).map fun i => qr.upperEntry i i

/-! ## Rank -/

/-- The number of diagonal entries, from the first one on, whose magnitude is above the
threshold. -/
def rankAbove (qr : PivotedQR α) (threshold : α) : Nat :=
  (qr.diagonal.takeWhile fun d => threshold < Scalar.abs d).length

/-- The magnitude up to which a diagonal entry counts as zero: twenty times the number of rows and
columns, the largest length of a column (one for a matrix of zeros) and the distance of adjacent
numbers at one. -/
def threshold (qr : PivotedQR α) : α :=
  let norm := if qr.largestNorm == 0 then 1 else qr.largestNorm
  ((20 : Nat) : α) * ((qr.height + qr.width : Nat) : α) * norm * Scalar.epsilon

/-- The numerical rank. -/
def rank (qr : PivotedQR α) : Nat :=
  qr.rankAbove qr.threshold

/-! ## The orthogonal factor -/

/-- The image of a vector under reflections that fix one leading entry more each time. A
reflection of weight zero is the identity and is passed over. -/
def reflectAll : List (Reflection α) → List α → List α
  | [], ys => ys
  | r :: rs, ys =>
    match if r.weight == 0 then ys else r.apply ys with
    | [] => []
    | y :: ys => y :: reflectAll rs ys

/-- The product of the transposed orthogonal factor with a vector of the height of the matrix. -/
def transposeTimes (qr : PivotedQR α) (b : List α) : List α :=
  reflectAll qr.reflections b

/-- `transposeTimes` for a vector that may be too short, in which case there is none unless there
is nothing to reflect. Entries below the height of the matrix stay as they are. -/
def transposeTimes? (qr : PivotedQR α) (b : List α) : Option (List α) :=
  if b.length < qr.height && qr.reflections.any (fun r => !(r.weight == 0)) then none
  else some (qr.transposeTimes b)

/-- The square of the length of a vector's part in the span of the first `rank` columns of the
orthogonal factor; of its part in the span of the columns of the matrix, if that is the rank. -/
def rangeNorm2 (qr : PivotedQR α) (b : List α) (rank : Nat) : α :=
  squaredNorm ((qr.transposeTimes b).take rank)

/-- `rangeNorm2` for a vector that may be too short (`transposeTimes?`). -/
def rangeNorm2? (qr : PivotedQR α) (b : List α) (rank : Nat) : Option α :=
  (qr.transposeTimes? b).map fun w => squaredNorm (w.take rank)

/-! ## Solving -/

/-- Back substitution in the leading square block of the triangular factor, for `rows` rows from
the top; `known` is the part of the solution found below them. -/
def backSubstitute (qr : PivotedQR α) (w : List α) : (rows : Nat) → (known : List α) → List α
  | 0, known => known
  | i + 1, known =>
    let s := known.zipIdx.foldl
      (fun s (y, k) => s - qr.upperEntry i (i + 1 + k) * y) (w.getD i 0)
    qr.backSubstitute w i (s / qr.upperEntry i i :: known)

/-- The basic solution of `A x = b`: the leading block of the triangular factor is solved, and the
unknowns of all other columns are zero. It solves a consistent system. There is none if `b` has
the wrong length or the solution is not finite. -/
def solveBasic (qr : PivotedQR α) (b : List α) : Option (List α) :=
  if b.length != qr.height then none
  else
    let y := qr.backSubstitute (qr.transposeTimes b) qr.rank []
    if y.all Scalar.isFinite then
      some ((qr.permutation.zip y).foldl (fun x (j, v) => x.set j v)
        (List.replicate qr.width 0))
    else none

end PivotedQR

end SketchSolver
