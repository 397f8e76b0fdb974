import SketchSolver.Document
import SketchSolver.Proofs.EquationSystem.Newton
import SketchSolver.Proofs.HandleTable

/-!
# What is loaded

A system that a group has been loaded into holds the unknowns of the group in the order of the
document, the equations that the document has written, and the values of those parameters that the
equations refer to and the group does not own (`Loads`). Of the system it was loaded into, nothing
is left but the settings.
-/

namespace SketchSolver

namespace EquationSystem

/-- The parameters of a list of equations. -/
theorem mem_foldl_paramsAfter {x : ParamHandle} :
    ∀ (qs : List (Equation α)) (seen : List ParamHandle),
      x ∈ qs.foldl (fun seen q => q.expr.paramsAfter seen) seen ↔
        x ∈ seen ∨ ∃ q ∈ qs, q.expr.dependsOn x = true
  | [], seen => by simp
  | q :: qs, seen => by
    rw [List.foldl_cons, mem_foldl_paramsAfter qs, Expr.mem_paramsAfter, or_assoc]
    simp

variable [Document δ α] {s t : EquationSystem α} {doc doc' : δ} {g : GroupHandle}
  {except : Option ConstraintHandle} {policy : Policy}

/-- The group has been loaded into `t`. -/
structure Loads (s : EquationSystem α) (doc : δ) (g : GroupHandle)
    (except : Option ConstraintHandle) (policy : Policy) (t : EquationSystem α) (doc' : δ) :
    Prop where
  policy : Document.policy doc g = .ok policy
  document : doc' = (Document.writeEquations doc g except []).2
  settings : t.settings = s.settings
  params : t.params = (Document.params doc g).map fun (h, x) => { handle := h, value := x }
  equations : t.equations = (Document.writeEquations doc g except []).1
  dragged : t.dragged = Document.dragged doc
  elimination : t.elimination = []
  rank : t.rank = none
  dof : t.dof = -1
  foreign : ∀ x, t.foreign.lookup x =
    if t.isUnknown x = false ∧ ∃ q ∈ t.equations, q.expr.dependsOn x = true then
      Document.paramValue? doc' x
    else none

/-- Keeps the value of a parameter aside, unless the group owns it. -/
def capture (doc : δ) (s : EquationSystem α) (h : ParamHandle) : EquationSystem α :=
  if s.isUnknown h then s else (Document.paramValue? doc h).elim s (s.setForeign h)

/-- Keeping the values of a list of parameters aside keeps those that the group does not own. -/
theorem foldl_capture (doc : δ) :
    ∀ (used : List ParamHandle) (s : EquationSystem α) (foreign : HandleTable α),
      ∃ foreign' : HandleTable α,
        used.foldl (capture doc) { s with foreign } = { s with foreign := foreign' } ∧
        ∀ x, foreign'.lookup x =
          if s.isUnknown x = false ∧ x ∈ used then
            (Document.paramValue? doc x).or (foreign.lookup x)
          else foreign.lookup x := by
  intro used s
  induction used with
  | nil => exact fun foreign => ⟨foreign, rfl, fun x => by simp⟩
  | cons h used ih =>
    intro foreign
    rw [List.foldl_cons, capture]
    change ∃ foreign' : HandleTable α,
      used.foldl _ (if s.isUnknown h = true then _ else _) = _ ∧ _
    cases hunknown : s.isUnknown h with
    | true =>
      rw [if_pos rfl]
      obtain ⟨foreign', heq, hlookup⟩ := ih foreign
      refine ⟨foreign', heq, fun x => ?_⟩
      rw [hlookup x]
      by_cases hx : x = h
      · simp [hx, hunknown]
      · simp [hx]
    | false =>
      rw [if_neg Bool.false_ne_true]
      cases hvalue : Document.paramValue? doc h with
      | none =>
        obtain ⟨foreign', heq, hlookup⟩ := ih foreign
        refine ⟨foreign', heq, fun x => ?_⟩
        rw [hlookup x]
        by_cases hx : x = h
        · simp [hx, hvalue]
        · simp [hx]
      | some y =>
        obtain ⟨foreign', heq, hlookup⟩ := ih (HandleTable.insert h y foreign)
        refine ⟨foreign', heq, fun x => ?_⟩
        rw [hlookup x, HandleTable.lookup_insert]
        by_cases hx : x = h
        · simp [hx, hvalue, hunknown]
        · simp [hx]

/-- Keeping values aside changes the table of these values and nothing else. -/
theorem captureForeign_spec (s : EquationSystem α) (doc : δ) (hempty : s.foreign = []) :
    ∃ foreign : HandleTable α, s.captureForeign doc = { s with foreign } ∧
      ∀ x, foreign.lookup x =
        if s.isUnknown x = false ∧ ∃ q ∈ s.equations, q.expr.dependsOn x = true then
          Document.paramValue? doc x
        else none := by
  have hcapture : s.captureForeign doc =
      (s.equations.foldl (fun seen q => q.expr.paramsAfter seen) []).foldl (capture doc) s := by
    unfold captureForeign
    refine congrArg (fun step => List.foldl step s _) (funext fun s => funext fun h => ?_)
    rw [capture]
    cases Document.paramValue? doc h <;> rfl
  rw [hcapture]
  generalize hused : s.equations.foldl (fun seen q => q.expr.paramsAfter seen) [] = used
  have hmem : ∀ x, (∃ q ∈ s.equations, q.expr.dependsOn x = true) ↔ x ∈ used := by
    intro x
    rw [← hused, mem_foldl_paramsAfter]
    simp
  simp only [hmem]
  obtain ⟨foreign, heq, hlookup⟩ := foldl_capture doc used s []
  rw [← hempty] at heq
  refine ⟨foreign, heq, fun x => ?_⟩
  rw [hlookup]
  simp

/-- Adding unknowns one by one extends the table by all of them. -/
theorem foldl_addParam : ∀ (ps : List (ParamHandle × α)) (s : EquationSystem α),
    ps.foldl (fun s (h, x) => s.addParam h x) s =
      { s with params := s.params ++ ps.map fun e => { handle := e.1, value := e.2 } }
  | [], s => by simp
  | (h, x) :: ps, s => by
    rw [List.foldl_cons, foldl_addParam ps]
    simp [addParam]

/-- Loading does what it says, whenever the group has a policy. -/
theorem loads_of_load (h : s.load doc g except = .ok (policy, t, doc')) :
    Loads s doc g except policy t doc' := by
  unfold load at h
  obtain ⟨policy', hpolicy, h⟩ := bind_eq_ok.1 h
  rw [foldl_addParam] at h
  simp only [clear, List.nil_append] at h
  obtain ⟨foreign, heq, hlookup⟩ := captureForeign_spec
    { s with
      params := (Document.params doc g).map fun e => { handle := e.1, value := e.2 }
      equations := (Document.writeEquations doc g except []).1
      dragged := Document.dragged doc
      foreign := []
      linearization := .empty
      elimination := []
      rank := none
      dof := -1 }
    (Document.writeEquations doc g except []).2 rfl
  rw [heq] at h
  cases h
  exact ⟨hpolicy, rfl, rfl, rfl, rfl, rfl, rfl, rfl, rfl, hlookup⟩

/-- The value that a list of parameters has last for a handle. -/
def lastValue? (ps : List (ParamHandle × α)) (x : ParamHandle) : Option α :=
  ((ps.filter (·.1 == x)).getLast?).map Prod.snd

namespace Loads

/-- The handles of the unknowns are those of the parameters of the group. -/
theorem handles_eq (h : Loads s doc g except policy t doc') :
    t.params.map (·.handle) = (Document.params doc g).map Prod.fst := by
  rw [h.params, List.map_map]
  rfl

/-- Unknowns have different handles if the parameters of the group have. -/
theorem handlesDistinct (h : Loads s doc g except policy t doc')
    (hd : ((Document.params doc g).map Prod.fst).Nodup) : t.HandlesDistinct := by
  unfold HandlesDistinct
  rw [h.handles_eq]
  exact hd

/-- The values of what has been loaded: those of the group, then those kept aside. -/
theorem value_eq [Scalar α] (h : Loads s doc g except policy t doc') (x : ParamHandle) :
    t.lookup.value x =
      match lastValue? (Document.params doc g) x with
      | some y => y
      | none =>
        if ∃ q ∈ t.equations, q.expr.dependsOn x = true then
          (Document.paramValue? doc' x).getD Scalar.undefined
        else Scalar.undefined := by
  have hparam : (t.param? x).map (·.value) = lastValue? (Document.params doc g) x := by
    rw [param?_eq_getLast?, h.params, List.filter_map, List.getLast?_map, Option.map_map]
    rfl
  simp only [lookup]
  cases hx : t.param? x with
  | some p =>
    rw [hx] at hparam
    rw [← hparam]
    rfl
  | none =>
    rw [hx] at hparam
    rw [← hparam]
    have hunknown : t.isUnknown x = false := by
      rw [isUnknown_eq_isSome_param?, hx]
      rfl
    simp only [Option.map_none, h.foreign, hunknown, true_and]
    split <;> rfl

/-- The unknowns are the handles that the group has a value for. -/
theorem isUnknown_eq (h : Loads s doc g except policy t doc') (x : ParamHandle) :
    t.isUnknown x = (lastValue? (Document.params doc g) x).isSome := by
  rw [isUnknown_eq_isSome_param?, param?_eq_getLast?, h.params, List.filter_map,
    List.getLast?_map, lastValue?, Option.isSome_map, Option.isSome_map]
  rfl

end Loads

end EquationSystem

end SketchSolver
