import SketchSolver.Solve.Conflict
import SketchSolver.EquationSystem.Elimination

/-!
# Solving a group

`EquationSystem.solve` finds values for the unknowns of a group:

1. the unknowns and equations of the group are loaded from the document;
2. equal unknowns are substituted, unless redundancy is to be judged strictly;
3. equations of one unknown are solved, then unknowns of one equation are eliminated;
4. what is left is linearized, tested for redundancy, solved by Newton's iteration and tested again;
5. if equations are redundant, constraints to remove are searched for, otherwise free unknowns are
   marked;
6. eliminated and substituted unknowns are recovered, and the values are written back.

Nothing is written back unless all equations hold. `EquationSystem.check` tells redundancy and
degrees of freedom at the present values, and moves nothing.

An `Outcome` holds what a call does to the document beside the document itself: the values it
writes back, in order, and the status it records.
-/

namespace SketchSolver

/-- A value written back to a document. -/
structure Write (α : Type u) where
  handle : ParamHandle
  value : α
  free : Bool
deriving Repr

/-- What a solve leaves behind. -/
structure Outcome (δ : Type u) (α : Type v) where
  result : Except SolverError Report
  system : EquationSystem α
  document : δ
  /-- The values written back to the document, in order. -/
  writes : List (Write α) := []
  /-- The status recorded on the group. -/
  status : Option Status := none

/-- What a solve is to find out beside the values. -/
structure SolveOptions where
  /-- If equations are redundant, which constraints can be removed. -/
  findBad : Bool := true
  /-- Which unknowns are free. -/
  findFree : Bool := false
  /-- Substitution must not hide redundant constraints. -/
  strict : Bool := false
deriving DecidableEq, Repr

/-- A list of constraints with the one that wrote an equation, unless the document does not have
it or the list does. -/
def blame [Document δ α] (doc : δ) (bad : List ConstraintHandle) (h : EquationHandle) :
    List ConstraintHandle :=
  match h.constraint? with
  | none => bad
  | some c => if Document.hasConstraint doc c && !bad.contains c then bad ++ [c] else bad

namespace EquationSystem

/-! ## Writing back -/

/-- What is written back of the unknowns, in the order of the table. -/
def writes (s : EquationSystem α) : List (Write α) :=
  s.params.map fun p => { handle := p.handle, value := p.value, free := p.free }

/-- The document with values written back in order. -/
def applyWrites [Document δ α] (doc : δ) (writes : List (Write α)) : δ :=
  writes.foldl (fun doc w => Document.writeBack doc w.handle w.value w.free) doc

/-- The outcome of a call that has come to a report: values are written back, and the status is
recorded on the group. -/
def conclude [Document δ α] (s : EquationSystem α) (doc : δ) (g : GroupHandle) (report : Report)
    (writes : List (Write α)) : Outcome δ α where
  result := .ok report
  system := s
  document := Document.recordStatus (applyWrites doc writes) g report.status
  writes := writes
  status := some report.status

/-! ## Failures -/

/-- The equations that fixed, each alone, the unknowns of an expression, in the order of the
unknowns. -/
def fixingEquations (s : EquationSystem α) (e : Expr α) : List (Equation α) :=
  e.params.flatMap fun h =>
    match s.param? h with
    | some p =>
      if p.state == .solvedAlone then
        s.equations.filter fun q => q.state == .solvedAlone && q.stage == p.stage
      else []
    | none => []

variable [Scalar α] [Document δ α]

/-- The residual of a row of the linearization counts as zero. -/
def isSatisfied (s : EquationSystem α) (row : Nat) : Bool :=
  match s.linearization.residuals[row]? with
  | some b => Scalar.abs b ≤ s.settings.convergeTolerance && !s.settings.isUnreasonable b
  | none => false

/-- The constraints to blame for the rows of the linearization that are not satisfied: the one
that wrote the row, and those that fixed unknowns of it. -/
def blamed (s : EquationSystem α) (doc : δ) : List ConstraintHandle :=
  s.linearization.rows.zipIdx.foldl (fun bad (k, row) =>
    if s.isSatisfied row then bad
    else
      match s.equations[k]? with
      | none => bad
      | some q => (s.fixingEquations q.expr).foldl (fun bad q => blame doc bad q.handle)
          (blame doc bad q.handle)) []

/-- The report of an iteration that failed, by whether no equation is redundant. -/
def divergence (s : EquationSystem α) (doc : δ) (independent : Bool) : Report where
  result := .ofDiverged independent
  dof := s.dof
  rank := s.rank
  bad := s.blamed doc

/-! ## Solving -/

/-- Recovers the unknowns that are not in the main system and writes all values back, or nothing if
one of them cannot be recovered. -/
def recoverAndWrite (s : EquationSystem α) (doc : δ) (g : GroupHandle) (report : Report)
    (independent : Bool) : Except (Fault α) (Outcome δ α) := do
  let (recovered, s) ← s.copySubstituted.recover
  match recovered with
  | .error defining =>
    let report :=
      { report with
        result := .ofDiverged independent
        bad := blame doc report.bad defining }
    return s.conclude doc g report []
  | .ok () =>
    let s := s.copySubstituted
    return s.conclude doc g report s.writes

/-- What follows when all equations of the main system hold, by whether none of them is
redundant. -/
def finish (s : EquationSystem α) (doc : δ) (g : GroupHandle) (policy : Policy)
    (options : SolveOptions) (watch : Stopwatch) (independent : Bool) :
    Except (Fault α) (Outcome δ α) := do
  let report : Report := { result := .ofConverged independent, dof := s.dof, rank := s.rank }
  if independent then
    let s ← s.markFree options.findFree
    s.recoverAndWrite doc g report independent
  else if options.findBad then
    let (search, doc) ←
      s.findConflicts doc g options.strict (watch policy.searchTimeoutMs)
    match search with
    | .error e => return { result := .error e, system := s, document := doc }
    | .ok found =>
      s.recoverAndWrite doc g { report with bad := found.bad, timedOut := found.timedOut }
        independent
  else
    s.recoverAndWrite doc g report independent

/-- Solves the group that has been loaded. -/
def solveLoaded (s : EquationSystem α) (doc : δ) (g : GroupHandle) (policy : Policy)
    (options : SolveOptions) (watch : Stopwatch) : Except (Fault α) (Outcome δ α) := do
  let s := s.clearTags
  let s :=
    if policy.suppressDof || policy.allowRedundant || !options.strict then s.substitute.2 else s
  let (alone, s) ← s.solveSingletons
  if !alone then return s.conclude doc g (s.divergence doc true) []
  let s := s.eliminate.2
  let (written, s) := s.linearize .live
  if !written then return s.conclude doc g { result := .tooManyUnknowns } []
  let s := { s with rank := none, dof := -1 }
  let (independent, s) ←
    if policy.suppressDof || policy.allowRedundant then pure (true, s) else s.testRank
  let (converged, s) ← s.newton
  if !converged then return s.conclude doc g (s.divergence doc independent) []
  let (independent, s) ← if policy.suppressDof then pure (true, s) else s.testRank
  s.finish doc g policy options watch independent

/-- Finds values for the unknowns of a group and writes them back to the document. -/
def solve (s : EquationSystem α) (doc : δ) (g : GroupHandle) (options : SolveOptions)
    (watch : Stopwatch) : Except (Fault α) (Outcome δ α) :=
  match s.load doc g none with
  | .error e => .ok { result := .error e, system := s, document := doc }
  | .ok (policy, s, doc) => s.solveLoaded doc g policy options watch

/-! ## Checking -/

/-- Checks the group that has been loaded. -/
def checkLoaded (s : EquationSystem α) (doc : δ) (g : GroupHandle) (policy : Policy)
    (findBad findFree : Bool) (watch : Stopwatch) : Except (Fault α) (Outcome δ α) := do
  let (written, s) := s.clearTags.linearize .live
  if !written then return s.conclude doc g { result := .tooManyUnknowns } []
  let (independent, s) ← s.testRank
  let report : Report := { result := .ofConverged independent, dof := s.dof, rank := s.rank }
  if independent then
    let s ← s.markFree findFree
    return s.conclude doc g report s.writes
  else if !policy.suppressDof && !policy.allowRedundant && findBad then
    let (search, doc) ← s.findConflicts doc g true (watch policy.searchTimeoutMs)
    match search with
    | .error e => return { result := .error e, system := s, document := doc }
    | .ok found =>
      return s.conclude doc g { report with bad := found.bad, timedOut := found.timedOut } s.writes
  else
    return s.conclude doc g report s.writes

/-- Tells whether the equations of a group are redundant and how many degrees of freedom it has at
the present values. Nothing is substituted, so every constraint shows in the rank. -/
def check (s : EquationSystem α) (doc : δ) (g : GroupHandle) (findBad findFree : Bool)
    (watch : Stopwatch) : Except (Fault α) (Outcome δ α) :=
  match s.load doc g none with
  | .error e => .ok { result := .error e, system := s, document := doc }
  | .ok (policy, s, doc) => s.checkLoaded doc g policy findBad findFree watch

end EquationSystem

end SketchSolver
