import SketchSolver.EquationSystem.Jacobian

/-!
# Rank and freedom

The rank of the Jacobian tells whether equations are redundant and how many degrees of freedom are
left. An unknown is free if its column can be dropped while the rows stay independent. Dropping a
column loses rank exactly if the unit vector of the column lies in the row space, so one
factorization of the transposed Jacobian tells it for all columns.
-/

namespace SketchSolver.EquationSystem

variable [Scalar α]

/-- The rank of the Jacobian as it was evaluated last. -/
def jacobianRank (s : EquationSystem α) : Nat :=
  if s.linearization.rows.isEmpty || s.linearization.columns.isEmpty then 0
  else s.settings.rankOf s.linearization.jacobian.toDense

/-- Evaluates the Jacobian and records its rank and the degrees of freedom. True if no equation is
redundant. -/
def testRank (s : EquationSystem α) : Except (Fault α) (Bool × EquationSystem α) := do
  let s ← s.evalJacobian
  let rank := s.jacobianRank
  let dof := (s.linearization.columns.length : Int) - (rank : Int)
  return (rank == s.linearization.rows.length, { s with rank := some rank, dof })

/-- The columns of the Jacobian that can be dropped, one at a time, while its rows stay
independent. Without rows these are all columns, and with redundant rows there are none. -/
def freeColumns (s : EquationSystem α) : List Nat :=
  let m := s.linearization.rows.length
  let n := s.linearization.columns.length
  if m = 0 then List.range n
  else
    let qr := PivotedQR.factorize s.linearization.jacobian.toDense.transpose
    let rank := qr.rank
    if rank < m then []
    else
      (List.range n).filter fun j =>
        let unit := (List.range n).map fun i => if i = j then (1 : α) else 0
        s.settings.freeColumnTolerance < 1 - qr.rangeNorm2 unit rank

/-- Clears all marks of free unknowns and, if they are to be found, linearizes the live system at
the present values and marks them anew. -/
def markFree (s : EquationSystem α) (find : Bool) : Except (Fault α) (EquationSystem α) := do
  let s := { s with params := s.params.map fun p => { p with free := false } }
  if !find then return s
  let (written, s) := s.linearize .live
  if !written then return s
  let s ← s.evalJacobian
  return s.freeColumns.foldl (fun s j =>
    match s.linearization.columns[j]? with
    | some i => s.updateParam i fun p => { p with free := true }
    | none => s) s

end SketchSolver.EquationSystem
