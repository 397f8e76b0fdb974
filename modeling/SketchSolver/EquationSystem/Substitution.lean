import SketchSolver.EquationSystem.Basic
import SketchSolver.Expr.Replacement
import SketchSolver.Partition

/-!
# Substitution of equal unknowns

An equation `a - b = 0` of two unknowns says that they are one. The unknowns are partitioned into
classes of equal ones, each class of several unknowns gets one root, and every equation is written
in terms of roots from then on. The root is the first unknown of the class that is being dragged,
in the order of the table, or its last unknown if none is; so it does not depend on the order in
which the equalities were found.
-/

namespace SketchSolver.EquationSystem

/-- The positions of the unknowns that the expression says to be equal, if it does. -/
def equality? (s : EquationSystem α) : Expr α → Option (Nat × Nat)
  | .binary .sub (.param a) (.param b) => do
    let i ← s.position? a
    let j ← s.position? b
    return (i, j)
  | _ => none

/-- The partition of the unknowns into classes that the equalities join. -/
def classes (s : EquationSystem α) : Partition :=
  (s.equations.filterMap fun q => s.equality? q.expr).foldl
    (fun p (a, b) => if a = b then p else (p.union a b).2)
    (.discrete s.params.length)

/-- The unknown at the position is being dragged. -/
def isDraggedAt (s : EquationSystem α) (position : Nat) : Bool :=
  match s.params[position]? with
  | some p => s.isDragged p.handle
  | none => false

/-- The root of a class, given its members in the order of the table. A class of one unknown has
none. -/
def rootOf? (s : EquationSystem α) : List Nat → Option Nat
  | [] | [_] => none
  | members =>
    match members.find? s.isDraggedAt with
    | some root => some root
    | none => members.getLast?

/-- The root of the class of each unknown, in the order of the table. -/
def roots (s : EquationSystem α) : List (Option Nat) :=
  let representatives := s.classes.representatives
  representatives.map fun r =>
    s.rootOf? (representatives.zipIdx.filterMap fun (r', i) => if r' = r then some i else none)

/-- The handle of the unknown that takes the place of the one at a position, if it is another
one. -/
def replacement? (s : EquationSystem α) (position : Nat) (root : Option Nat) : Option ParamHandle :=
  match root with
  | none => none
  | some r => if r = position then none else s.params[r]?.map (·.handle)

/-- An unknown after substitution, given the root of its class. -/
def substituteParam (s : EquationSystem α) (p : Param α) (position : Nat) (root : Option Nat) :
    Param α :=
  match root, s.replacement? position root with
  | none, _ => p
  | some _, none => { p with root := none, state := .live }
  | some _, some h => { p with root := some h, state := .substituted }

/-- Substitutes equal unknowns by their roots. The result tells how many unknowns have been
substituted. -/
def substitute (s : EquationSystem α) : Nat × EquationSystem α :=
  if s.equations.all fun q => (s.equality? q.expr).isNone then (0, s)
  else
    let placed := (s.params.zip s.roots).zipIdx
    let renames := placed.filterMap fun ((p, root), i) =>
      (s.replacement? i root).map fun h => (p.handle, h)
    let rename := fun h => (renames.lookup h).getD h
    (renames.length,
     { s with
       params := placed.map fun ((p, root), i) => s.substituteParam p i root
       equations := s.equations.map fun q =>
         { q with
           expr := q.expr.rename rename
           state := if (s.equality? q.expr).isSome then .satisfied else q.state } })

/-- Gives the unknown at a position the value of its root, if it has been substituted. -/
def copyFromRoot (s : EquationSystem α) (position : Nat) : EquationSystem α :=
  match s.params[position]? with
  | none => s
  | some p =>
    if p.state == .substituted then
      match p.root.bind s.param? with
      | some root => s.updateParam position fun p => { p with value := root.value }
      | none => s
    else s

/-- Gives every substituted unknown the value of its root, in the order of the table. -/
def copySubstituted (s : EquationSystem α) : EquationSystem α :=
  (List.range s.params.length).foldl copyFromRoot s

end SketchSolver.EquationSystem
