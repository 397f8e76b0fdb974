import SketchSolver.EquationSystem.Singletons

/-!
# Elimination of unknowns that occur in one equation

An unknown that only one live equation refers to can be left out together with that equation, and
recovered from it once all others have their values. Unknowns are eliminated in rounds. An equation
claimed in one round is retired for all later ones, but still counts as open within its own round,
so no other unknown of the equation is left without an equation besides it.

The record of a run holds the rounds with the latest one first. An unknown is recovered from values
that are recovered before it.
-/

namespace SketchSolver

/-- Which live unknowns each live equation refers to, by position. -/
structure ReferenceGraph where
  /-- The unknowns of each equation, in the order of their first occurrence. -/
  unknownsOf : List (List Nat)
deriving Repr

/-- The positions of the equations that refer to an unknown, ascending. -/
def ReferenceGraph.equationsOf (g : ReferenceGraph) (position : Nat) : List Nat :=
  g.unknownsOf.zipIdx.filterMap fun (unknowns, k) =>
    if unknowns.contains position then some k else none

namespace EquationSystem

/-- The stage of the first round. -/
def firstRound : Nat := 1000

/-- The unknown at the position is live. -/
def isLiveAt (s : EquationSystem α) (position : Nat) : Bool :=
  match s.params[position]? with
  | some p => p.state == .live
  | none => false

/-- The references between live equations and live unknowns. -/
def references (s : EquationSystem α) : ReferenceGraph where
  unknownsOf := s.equations.map fun q =>
    if q.state == .live then
      (q.expr.params.filterMap s.position?).filter s.isLiveAt
    else []

/-- The equation at the position has been settled before the round. -/
def isRetired (s : EquationSystem α) (round k : Nat) : Bool :=
  match s.equations[k]? with
  | some q => q.state != .live && q.stage < round
  | none => true

/-- The equations that refer to an unknown and are not retired. -/
def openEquations (s : EquationSystem α) (g : ReferenceGraph) (round position : Nat) : List Nat :=
  (g.equationsOf position).filter fun k => !s.isRetired round k

/-- Every other unknown of the equation has an open equation besides it. -/
def canRemove (s : EquationSystem α) (g : ReferenceGraph) (round position k : Nat) : Bool :=
  ((g.unknownsOf.getD k []).filter (· != position)).all fun other =>
    (s.openEquations g round other).any (· != k)

variable [Scalar α]

/-- The equation from which the unknown at a position can be recovered: its only open one, if that
can be removed and solved for the unknown. Dragged unknowns are not eliminated. -/
def definingEquation? (s : EquationSystem α) (g : ReferenceGraph) (round position : Nat) :
    Option (ParamHandle × Nat) :=
  match s.params[position]? with
  | none => none
  | some p =>
    if p.state != .live || s.isDragged p.handle then none
    else
      match s.openEquations g round position with
      | [k] =>
        match s.equations[k]? with
        | some q =>
          if s.canRemove g round position k && q.expr.fold.canIsolate p.handle then
            some (p.handle, k)
          else none
        | none => none
      | _ => none

/-- Eliminates the unknown at a position in a round, if it can be. -/
def eliminateAt (g : ReferenceGraph) (round : Nat) (found : EliminationRound × EquationSystem α)
    (position : Nat) : EliminationRound × EquationSystem α :=
  let (found, s) := found
  match s.definingEquation? g round position with
  | none => (found, s)
  | some (h, k) =>
    let s := s.updateEquation k fun q => { q with state := .eliminated, stage := round }
    let s := s.updateParam position fun p => { p with state := .eliminated, stage := round }
    (HandleTable.insert h k found, s)

/-- One round of elimination over the whole table. -/
def eliminationRound (g : ReferenceGraph) (round : Nat) (s : EquationSystem α) :
    EliminationRound × EquationSystem α :=
  (List.range s.params.length).foldl (eliminateAt g round) ([], s)

/-- Rounds of elimination until one finds nothing, but at most `fuel` of them. -/
def eliminateRounds (g : ReferenceGraph) :
    (fuel round : Nat) → EquationSystem α → Nat × EquationSystem α
  | 0, _, s => (0, s)
  | fuel + 1, round, s =>
    let (found, s) := eliminationRound g round s
    if found.isEmpty then (0, s)
    else
      let (count, s) :=
        eliminateRounds g fuel (round + 1) { s with elimination := found :: s.elimination }
      (found.length + count, s)

/-- Eliminates unknowns until no more can be. Every round but the last eliminates one at least, so
there is no more than one round per unknown and a last one. The result tells how many unknowns have
been eliminated. -/
def eliminate (s : EquationSystem α) : Nat × EquationSystem α :=
  eliminateRounds s.references (s.params.length + 1) firstRound s

/-! ## Recovering the values -/

/-- Recovers unknowns in the order of a list, each from its equation. If the value of one is
undefined or larger than can be meant, it and all after it are left as they are, and its equation
is the answer. -/
def recoverFrom : List (ParamHandle × Nat) → EquationSystem α →
    Except (Fault α) (Except EquationHandle Unit × EquationSystem α)
  | [], s => return (.ok (), s)
  | (h, k) :: rest, s =>
    match s.equations[k]? with
    | none => .error .outOfRange
    | some q => do
      let x ← s.valueFrom q.expr h
      if s.settings.isUnreasonable x then return (.error q.handle, s)
      match s.position? h with
      | some i => recoverFrom rest (s.updateParam i fun p => { p with value := x, known := true })
      | none => recoverFrom rest s

/-- Recovers the eliminated unknowns, those of the latest round first, and those of one round in
the order of their handles. -/
def recover (s : EquationSystem α) :
    Except (Fault α) (Except EquationHandle Unit × EquationSystem α) :=
  recoverFrom s.elimination.flatten s

end EquationSystem

end SketchSolver
