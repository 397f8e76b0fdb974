import SketchSolver.Proofs.Sketch.Frame
import SketchSolver.Proofs.Solve.FreeUnknowns
import SketchSolver.Proofs.Solve.Rest

/-!
# Free parameters of a sketch

A solve and a check of a group that find no redundant equation mark parameters as free by one
criterion, so their marks agree wherever the solve has set any: on all parameters of the group but
those that it has substituted or eliminated (`solveGroup_checkGroup_isFree`). These are left
unmarked by a solve, and marked by the check if they are free; a parameter that has been substituted
is so if its root is. A check that comes right after a solve loads what the solve has loaded, at the
values that the solve has found (`agree_load_of_solve`).
-/

namespace SketchSolver.Sketch

open Matrix
open EquationSystem (Deferred)

section
variable {g : GroupHandle} {policy : Policy} {s s' : Sketch α} {writes : List (Write α)}
  {report : Report}

/-- The parameter is marked as free. -/
def isFree (s : Sketch α) (x : ParamHandle) : Bool :=
  (s.param? x).any (·.free)

/-- A parameter of the group has the mark that has been written back for it. -/
theorem Answered.isFree_eq (hs : (s.params.map (·.handle)).Nodup)
    (h : Answered g s writes (.ok report) s') (hok : report.result.isOkay = true) {w : Write α}
    (hw : w ∈ writes) : s'.isFree w.handle = w.free := by
  obtain ⟨_, _, _, huntouched, hparams⟩ := h
  rw [if_pos hok] at hparams
  obtain ⟨hhandles, hover⟩ := hparams
  have hmem : w.handle ∈ (s.params.filter (·.group == g)).map (·.handle) := by
    rw [← hhandles]
    exact List.mem_map_of_mem hw
  obtain ⟨p, hp, hpw⟩ := List.mem_map.1 hmem
  obtain ⟨hp, hgroup⟩ := List.mem_filter.1 hp
  obtain ⟨p', hp', hover⟩ := forall₂_mem hover hp
  rw [SketchParam.Overwritten, if_pos (beq_iff_eq.1 hgroup)] at hover
  obtain ⟨w', hw', rfl⟩ := hover
  have hself : w ∈ writes.filter (·.handle == p.handle) :=
    List.mem_filter.2 ⟨hw, beq_iff_eq.2 hpw.symm⟩
  rw [hw', List.mem_singleton] at hself
  subst hself
  have hparam := param?_of_mem (huntouched.handles_eq ▸ hs) hp'
  change s'.param? p.handle = _ at hparam
  rw [isFree, ← hpw, hparam]
  rfl

variable [Scalar α] {options : SolveOptions} {watch : Stopwatch} {out : Outcome (Sketch α) α}
  {t u : EquationSystem α} {s₀ s₁ : Sketch α}

/-- What is loaded from the sketch that a solve without redundant equations has left is what the
solve has loaded, at the values that it has found. -/
theorem agree_load_of_solve (hs : (s.params.map (·.handle)).Nodup)
    (hout : (EquationSystem.empty s.settings).solve s g options watch = .ok out)
    (hresult : out.result = .ok report) (hokay : report.result = .okay)
    (hload : (EquationSystem.empty s.settings).load s g none = .ok (policy, t, s₀))
    (hs' : s' = out.document.remeasure g)
    (hload' : (EquationSystem.empty s'.settings).load s' g none = .ok (policy, u, s₁)) :
    (t.withValuesOf out.system).Agree u := by
  have hok := SolveResult.isOkay_of_eq_okay hokay
  have hl := EquationSystem.loads_of_load hload
  have hmeasured : s₀ = s.measureReferences g policy none := by
    rw [hl.document, writeEquations_eq hl.policy]
  have hlooks : LooksSame g policy s s₀ := by
    rw [hmeasured]
    exact looksSame_measureReferences s none
  have hparams : s₀.params = s.params := by
    rw [hmeasured]
    rfl
  obtain ⟨_, _, _, _, _, _, _, hdocument⟩ := EquationSystem.solve_marks hload hout hresult hokay
  rw [hdocument] at hs'
  obtain ⟨hcover, _, hwrites⟩ := handles_of_solve (nodup_params hs) hout hresult hok
  have hvalue := paramValue?_of_system hs hout hresult hok hparams hs'
  have hs₁ : (s'.params.map (·.handle)).Nodup := by
    rw [hs', params_remeasure]
    change ((EquationSystem.applyWrites s₀ out.writes).params.map _).Nodup
    rwa [handles_applyWrites, hparams]
  -- The sketch with the values found, before and after: nothing but these has changed.
  have hvalued : Document.policy (s.withValuesOf g out.system) g = .ok policy := hl.policy
  have hvalued' : Document.policy (s'.withValuesOf g out.system) g = .ok policy :=
    (EquationSystem.loads_of_load hload').policy
  obtain ⟨v, _, hv⟩ := exists_load_eq_ok hvalued (.empty s.settings) none
  obtain ⟨v', _, hv'⟩ := exists_load_eq_ok hvalued' (.empty s'.settings) none
  have hbefore : v.Agree (t.withValuesOf out.system) :=
    agree_load_withValuesOf rfl hcover hload hv
  have hlooks' := looksSame_withValuesOf_of_solve hl.policy hlooks hcover hwrites hs'
  have hbetween : v.Agree v' :=
    (agree_load hlooks' hlooks'.settings hv hv' (hlooks'.groupEquations_eq _)).1
  have hself : LooksSame g policy s' (s'.withValuesOf g out.system) :=
    looksSame_withValuesOf_self hs₁ hvalue
  have hafter : u.Agree v' :=
    (agree_load hself rfl hload' hv' (hself.groupEquations_eq _)).1
  exact (hbefore.symm.trans hbetween).trans hafter.symm

end

section
variable [Field K] [LinearOrder K] [PartialFunctions K] {g : GroupHandle} {policy : Policy}
  {s s₀ s₁ s₂ : Sketch (Exact K)}
  {options : SolveOptions} {watch watch' : Stopwatch} {report report' : Report}
  {t : EquationSystem (Exact K)} {out : Outcome (Sketch (Exact K)) (Exact K)} {m n : Nat}
  {M : Matrix (Fin m) (Fin n) K}

/-- A check right after a solve loads a system of the same unknowns, with the Jacobian that the
group has at the values found. -/
theorem exists_load_of_solve (hs : (s.params.map (·.handle)).Nodup)
    (hsolve : s.solveGroup g options watch = .ok (.ok report, s₁)) (hokay : report.result = .okay)
    (hload : (EquationSystem.empty s.settings).load s g none = .ok (policy, t, s₀))
    (hout : (EquationSystem.empty s.settings).solve s g options watch = .ok out)
    (hM : t.IsJacobian out.value M) :
    (s₁.params.map (·.handle)).Nodup ∧ s₁.settings = s.settings ∧ ∃ u s₂,
      (EquationSystem.empty s₁.settings).load s₁ g none = .ok (policy, u, s₂) ∧
      u.params.map (·.handle) = out.system.params.map (·.handle) ∧
      u.IsJacobian u.lookup.value M := by
  have hok := SolveResult.isOkay_of_eq_okay hokay
  have hdg := nodup_params (g := g) hs
  have hl := EquationSystem.loads_of_load hload
  obtain ⟨_, hout', hresult, hdocument⟩ := solveGroup_eq_ok hsolve hok
  obtain rfl := Except.ok.inj (hout.symm.trans hout')
  obtain ⟨_, _, _, hrun, hanswered⟩ := exists_solveGroup hs g options watch
  obtain ⟨hanswer, rfl⟩ := Prod.mk.inj (Except.ok.inj (hsolve.symm.trans hrun))
  rw [← hanswer] at hanswered
  obtain ⟨group, hsome, hstatus, huntouched, _⟩ := hanswered
  have hpolicy : Document.policy s₁ g = .ok policy := by
    have hpolicy := policy_eq_ok_iff.1 hl.policy
    rw [hsome] at hpolicy
    rw [policy_eq_ok_iff, hstatus]
    exact hpolicy
  obtain ⟨u, s₂, hu⟩ := exists_load_eq_ok hpolicy (.empty s₁.settings) none
  have hagree := agree_load_of_solve hs hout hresult hokay hload hdocument hu
  refine ⟨huntouched.handles_eq ▸ hs, huntouched.settings, u, s₂, hu, ?_,
    EquationSystem.isJacobian_of_solve hdg hload hout hresult hok hM hagree⟩
  rw [hagree.handles, EquationSystem.handles_withValuesOf, hl.handles_eq,
    (handles_of_solve hdg hout hresult hok).1]

variable [IsStrictOrderedRing K] [LawfulRoot K] [TotalRoot K]

/-- A solve marks a parameter of the group as free if it has not recovered it and, to first order,
the parameter can be moved so that all equations go on to hold. -/
theorem solveGroup_isFree (hs : (s.params.map (·.handle)).Nodup)
    (htolerance : s.settings.freeColumnTolerance = .number 0)
    (hsolve : s.solveGroup g options watch = .ok (.ok report, s₁)) (hokay : report.result = .okay)
    (hfind : options.findFree = true)
    (hload : (EquationSystem.empty s.settings).load s g none = .ok (policy, t, s₀))
    (hout : (EquationSystem.empty s.settings).solve s g options watch = .ok out)
    (hM : t.IsJacobian out.value M) (hpivots : out.system.Pivots out.value) (hfull : M.rank = m)
    {x : Fin n} {q : Param (Exact K)} (hx : out.system.params[(x : Nat)]? = some q) :
    s₁.isFree q.handle = true ↔ ¬ Deferred q.state q.stage ∧ ∃ w, M *ᵥ w = 0 ∧ w x ≠ 0 := by
  have hok := SolveResult.isOkay_of_eq_okay hokay
  obtain ⟨_, _, hout', hrun, hanswered⟩ := exists_solveGroup hs g options watch
  obtain rfl := Except.ok.inj (hout.symm.trans hout')
  obtain ⟨hresult, rfl⟩ := Prod.mk.inj (Except.ok.inj (hsolve.symm.trans hrun))
  rw [← hresult] at hanswered
  have hw : (⟨q.handle, q.value, q.free⟩ : Write (Exact K)) ∈ out.writes := by
    rw [(handles_of_solve (nodup_params hs) hout hresult.symm hok).2.1]
    exact List.mem_map_of_mem (List.mem_of_getElem? hx)
  rw [hanswered.isFree_eq hs hok hw]
  exact (EquationSystem.solve_free_iff (nodup_params hs) htolerance hload hout hresult.symm hokay
    hfind hM hpivots hfull hx).1

/-- A check marks a parameter of the group as free if, to first order, it can be moved so that all
equations go on to hold. -/
theorem checkGroup_isFree (hs : (s.params.map (·.handle)).Nodup)
    (hrank : IsExactRank s.settings.rankOf)
    (htolerance : s.settings.freeColumnTolerance = .number 0)
    (hcheck : s.checkGroup g true watch = .ok (.ok report, s₁)) (hokay : report.result = .okay)
    (hload : (EquationSystem.empty s.settings).load s g none = .ok (policy, t, s₀))
    (hM : t.IsJacobian t.lookup.value M) :
    M.rank = m ∧ ∀ (x : Fin n) (p : Param (Exact K)), t.params[(x : Nat)]? = some p →
      (s₁.isFree p.handle = true ↔ ∃ w, M *ᵥ w = 0 ∧ w x ≠ 0) := by
  have hok := SolveResult.isOkay_of_eq_okay hokay
  obtain ⟨checked, _, hchecked, hrun, hanswered, _⟩ := exists_checkGroup hs g true watch
  obtain ⟨hresult, rfl⟩ := Prod.mk.inj (Except.ok.inj (hcheck.symm.trans hrun))
  rw [← hresult] at hanswered
  have hd := (EquationSystem.loads_of_load hload).handlesDistinct (nodup_params hs)
  obtain ⟨hfull, hhandles, hmarks⟩ :=
    EquationSystem.check_free_iff hload hd hrank htolerance hchecked hresult.symm hokay hM
  refine ⟨hfull, fun x p hx => ?_⟩
  obtain ⟨w, hw, hwp⟩ : ∃ w, checked.writes[(x : Nat)]? = some w ∧ w.handle = p.handle := by
    have hx' := congrArg (·[(x : Nat)]?) hhandles
    simp only [List.getElem?_map, hx, Option.map_some] at hx'
    exact Option.map_eq_some_iff.1 hx'
  rw [← hwp, hanswered.isFree_eq hs hok (List.mem_of_getElem? hw), hmarks x w hw]

/-- A solve that finds free parameters and no redundant equation, and a check right after it that
does so too, leave the same mark on every parameter of the group that the solve has not substituted
or eliminated. One of these is unmarked after the solve, and marked after the check if it is free;
one that has been substituted then has the mark of its root. -/
theorem solveGroup_checkGroup_isFree (hs : (s.params.map (·.handle)).Nodup)
    (hrank : IsExactRank s.settings.rankOf)
    (htolerance : s.settings.freeColumnTolerance = .number 0)
    (hsolve : s.solveGroup g options watch = .ok (.ok report, s₁)) (hokay : report.result = .okay)
    (hfind : options.findFree = true)
    (hcheck : s₁.checkGroup g true watch' = .ok (.ok report', s₂))
    (hokay' : report'.result = .okay)
    (hload : (EquationSystem.empty s.settings).load s g none = .ok (policy, t, s₀))
    (hout : (EquationSystem.empty s.settings).solve s g options watch = .ok out)
    (hM : t.IsJacobian out.value M) (hpivots : out.system.Pivots out.value) :
    ∀ p ∈ s.params, p.group = g → ∃ q ∈ out.system.params, q.handle = p.handle ∧
      (s₁.isFree p.handle = true ↔
        ¬ Deferred q.state q.stage ∧ s₂.isFree p.handle = true) ∧
      (q.state = .substituted →
        ∃ root, q.root = some root ∧ s₂.isFree root = s₂.isFree p.handle) := by
  have hok := SolveResult.isOkay_of_eq_okay hokay
  have hdg := nodup_params (g := g) hs
  have hl := EquationSystem.loads_of_load hload
  obtain ⟨_, hout', hresult, _⟩ := solveGroup_eq_ok hsolve hok
  obtain rfl := Except.ok.inj (hout.symm.trans hout')
  obtain ⟨hcover, _, _⟩ := handles_of_solve hdg hout hresult hok
  obtain ⟨hs₁, hsettings, u, _, hu, hhandles, hM'⟩ :=
    exists_load_of_solve hs hsolve hokay hload hout hM
  obtain ⟨hfull, hmarks⟩ := checkGroup_isFree hs₁ (hsettings ▸ hrank) (hsettings ▸ htolerance)
    hcheck hokay' hu hM'
  have hchecked : ∀ (x : Fin n) (q : Param (Exact K)), out.system.params[(x : Nat)]? = some q →
      (s₂.isFree q.handle = true ↔ ∃ w, M *ᵥ w = 0 ∧ w x ≠ 0) := by
    intro x q hx
    have hx' := congrArg (·[(x : Nat)]?) hhandles
    simp only [List.getElem?_map, hx, Option.map_some] at hx'
    obtain ⟨p, hp, hpq⟩ := Option.map_eq_some_iff.1 hx'
    rw [← hpq, hmarks x p hp]
  intro p hp hgroup
  have hmem : p.handle ∈ out.system.params.map (·.handle) := by
    rw [hcover]
    exact List.mem_map.2 ⟨(p.handle, p.value), List.mem_map.2
      ⟨p, List.mem_filter.2 ⟨hp, beq_iff_eq.2 hgroup⟩, rfl⟩, rfl⟩
  obtain ⟨q, hq, hqp⟩ := List.mem_map.1 hmem
  obtain ⟨i, hi⟩ := List.getElem?_of_mem hq
  obtain ⟨x, rfl⟩ : ∃ x : Fin n, (x : Nat) = i := by
    have hlength := congrArg List.length (hcover.trans hl.handles_eq.symm)
    rw [List.length_map, List.length_map, hM.params] at hlength
    exact ⟨⟨i, hlength ▸ (List.getElem?_eq_some_iff.1 hi).1⟩, rfl⟩
  refine ⟨q, hq, hqp, ?_, fun hstate => ?_⟩
  · rw [← hqp, hchecked x q hi]
    exact solveGroup_isFree hs htolerance hsolve hokay hfind hload hout hM hpivots hfull hi
  · obtain ⟨y, r, hy, hroot, hkernel⟩ := (EquationSystem.solve_free_iff hdg htolerance hload hout
      hresult hokay hfind hM hpivots hfull hi).2 hstate
    refine ⟨r.handle, hroot, Bool.eq_iff_iff.2 ?_⟩
    rw [← hqp, hchecked x q hi, hchecked y r hy]
    exact exists_congr fun w => and_congr_right fun hw => by rw [hkernel w hw]

end

/-- Two points in one place that are to coincide. -/
noncomputable def stacked : Sketch (Exact ℝ) :=
  let s := Sketch.empty { EquationSystem.realSettings with
    rankOf := Exact.rank
    freeColumnTolerance := .number 0 }
  let (g, s) := s.addGroup "stacked"
  let (a, s) := s.addPoint g (.number 0) (.number 0)
  let (b, s) := s.addPoint g (.number 0) (.number 0)
  (s.addConstraint g (.pointsCoincident a b)).2

/-- What a solve of the two points loads. -/
noncomputable def stackedSystem : EquationSystem (Exact ℝ) :=
  { EquationSystem.empty stacked.settings with
    params := [1, 2, 3, 4].map fun n => { handle := ⟨n⟩, value := .number 0 }
    equations := [.param ⟨1⟩ - .param ⟨3⟩, .param ⟨2⟩ - .param ⟨4⟩].zipIdx.map fun (e, k) =>
      { handle := ⟨.constraint ⟨1⟩, k⟩, expr := e } }

/-- The two points are loaded with their values and their two equations. -/
theorem load_stacked : (EquationSystem.empty stacked.settings).load stacked ⟨1⟩ none =
    .ok ({}, stackedSystem, stacked) :=
  rfl

/-- What is left once the coordinates of the first point have been substituted: no equation. -/
noncomputable def stackedReduced : EquationSystem (Exact ℝ) :=
  stackedSystem.simplified {} { findFree := true }

/-- No equation is solved alone and no unknown eliminated, and the coordinates of the second point
stay. -/
theorem solveSingletons_stacked : stackedReduced.solveSingletons = .ok (true, stackedReduced) ∧
    stackedReduced.eliminate.2 = stackedReduced ∧
    stackedReduced.select .live = ([2, 3], []) :=
  ⟨rfl, rfl, rfl⟩

/-- The points are in their place already. -/
theorem atRest_stacked : EquationSystem.AtRest stackedSystem.lookup.value
    stackedSystem.clearTags := by
  have hreal := EquationSystem.proper_realSettings
  have hvalue : ∀ p ∈ stackedSystem.params, p.value = .number 0 := by
    intro p hp
    obtain ⟨n, _, rfl⟩ := List.mem_map.1 hp
    rfl
  refine EquationSystem.atRest_clearTags
    ⟨hreal.tolerance, hreal.magnitude, hreal.scale, hreal.single⟩ (by decide) (fun p hp => ?_)
    fun q hq => ?_
  · rw [hvalue p hp]
    refine decide_eq_false (not_lt.2 ?_ : ¬ (100000000000 : ℝ) < |0|)
    norm_num
  · have hexpr : ∃ a b, q.expr = .param a - .param b ∧
        stackedSystem.lookup.value a = .number 0 ∧ stackedSystem.lookup.value b = .number 0 := by
      obtain rfl | rfl : q = _ ∨ q = _ := by simpa [stackedSystem] using hq
      · exact ⟨⟨1⟩, ⟨3⟩, rfl, rfl, rfl⟩
      · exact ⟨⟨2⟩, ⟨4⟩, rfl, rfl, rfl⟩
    obtain ⟨a, b, hexpr, ha, hb⟩ := hexpr
    rw [hexpr]
    change stackedSystem.lookup.value a - stackedSystem.lookup.value b = _
    rw [ha, hb, Exact.number_sub, sub_zero]

/-- Nothing that is left is divided by. -/
theorem regular_stacked {s : EquationSystem (Exact ℝ)}
    (hsame : EquationSystem.SameEquations stackedReduced s) :
    EquationSystem.Regular stackedSystem.lookup.value s := by
  have hexpr : ∀ q ∈ stackedReduced.equations, ∃ a, q.expr = .param a - .param a ∧
      stackedSystem.lookup.value a = .number 0 := by
    intro q hq
    have hmem : q.expr ∈ ([.param ⟨3⟩ - .param ⟨3⟩, .param ⟨4⟩ - .param ⟨4⟩] :
        List (Expr (Exact ℝ))) :=
      List.mem_map_of_mem (f := (·.expr)) hq
    rw [List.mem_cons, List.mem_singleton] at hmem
    rcases hmem with hexpr | hexpr
    · exact ⟨⟨3⟩, hexpr, rfl⟩
    · exact ⟨⟨4⟩, hexpr, rfl⟩
  refine EquationSystem.regular_of_sameEquations hsame ?_ ?_ ?_ <;> intro q hq <;>
    obtain ⟨a, hexpr, ha⟩ := hexpr q hq <;> rw [hexpr]
  · change stackedSystem.lookup.value a - stackedSystem.lookup.value a = _
    rw [ha, Exact.number_sub, sub_zero]
  · rfl
  · intro h
    change (Expr.binary .sub (.param a) (.param a)).divisible _ h = true
    simp [Expr.divisible, BinaryOp.undoable]

/-- Only the coordinates of the first point are recovered. -/
theorem deferred_stacked {s : EquationSystem (Exact ℝ)}
    (hframe : EquationSystem.Frame (fun _ _ => True) stackedReduced s) {q : Param (Exact ℝ)}
    (hq : q ∈ s.params) : ¬ Deferred q.state q.stage ↔ q.handle = ⟨3⟩ ∨ q.handle = ⟨4⟩ := by
  obtain ⟨p, hp, hkept⟩ := hframe.kept_of_mem hq
  have hmem : (p.handle, p.state) ∈ ([(⟨1⟩, .substituted), (⟨2⟩, .substituted), (⟨3⟩, .live),
      (⟨4⟩, .live)] : List (ParamHandle × ParamState)) :=
    List.mem_map_of_mem (f := fun p => (p.handle, p.state)) hp
  rw [Deferred, hkept.state, hkept.handle]
  generalize p.handle = x, p.state = st at hmem
  fin_cases hmem <;> decide

/-- The Jacobian of the two points. -/
def stackedJacobian : Matrix (Fin 2) (Fin 4) ℝ :=
  !![1, 0, -1, 0;
    0, 1, 0, -1]

/-- The two equations are independent. -/
theorem rank_stackedJacobian : stackedJacobian.rank = 2 := by
  refine rank_eq_card_iff.2 fun b => ⟨![b 0, b 1, 0, 0], funext fun i => ?_⟩
  fin_cases i <;> simp [stackedJacobian, mulVec, dotProduct, Fin.sum_univ_four]

/-- All four coordinates can be moved by the same amount. -/
theorem mulVec_stackedJacobian : stackedJacobian *ᵥ (fun _ => 1) = 0 := by
  funext k
  fin_cases k <;> simp [stackedJacobian, mulVec, dotProduct, Fin.sum_univ_four]

/-- The entries of the matrix are the partial derivatives, at any values. -/
theorem isJacobian_stacked (v : ParamHandle → Exact ℝ) :
    stackedSystem.IsJacobian v stackedJacobian where
  equations := rfl
  params := rfl
  entry k x q p hq hp := by
    have hpartial : ∀ a b y : ParamHandle,
        ((Expr.param a - .param b : Expr (Exact ℝ)).fold.partialWrt y).eval (.byHandle v) =
          .number ((if a = y then 1 else 0) - if b = y then 1 else 0) :=
      fun _ _ _ => Expr.eval_partialWrt_sub_param
    fin_cases k <;> fin_cases x <;> cases hq <;> cases hp <;>
      exact (hpartial _ _ _).trans (by simp [stackedJacobian])

/-- A solve of the two points finds no redundant equation. It substitutes the coordinates of the
first point. -/
theorem solve_stacked : ∃ out report,
    (EquationSystem.empty stacked.settings).solve stacked ⟨1⟩ { findFree := true } .still =
      .ok out ∧
    out.result = .ok report ∧ report.result = .okay ∧ out.system.Pivots out.value ∧
    EquationSystem.Frame (fun _ _ => True) stackedReduced out.system := by
  have hs : (stacked.params.map (·.handle)).Nodup := by decide
  have hd : stackedSystem.HandlesDistinct := by decide
  obtain ⟨halone, heliminate, hselect⟩ := solveSingletons_stacked
  obtain ⟨out, _, hout, _, hanswered⟩ := exists_solveGroup hs ⟨1⟩ { findFree := true } .still
  obtain ⟨report, hresult⟩ : ∃ report, out.result = .ok report := by
    cases hresult : out.result with
    | error e =>
      rw [hresult] at hanswered
      cases hanswered.1
    | ok report => exact ⟨report, rfl⟩
  have hsmall : ∀ s₁, stackedReduced.solveSingletons = .ok (true, s₁) →
      s₁.eliminate.2.countLive.2 < stackedSystem.settings.maxEquations := by
    intro s₁ h
    obtain rfl := (Prod.mk.inj (Except.ok.inj (halone.symm.trans h))).2
    decide
  have hsolved := EquationSystem.solveLoaded_exit (show stackedSystem.solveLoaded stacked ⟨1⟩ {}
    { findFree := true } .still = .ok out from hout)
  obtain ⟨hsame, hiff, _⟩ := atRest_stacked.exit hsmall hsolved hresult
  have hok : report.result.isOkay = true := hiff.2 (regular_stacked hsame)
  obtain ⟨_, _, _, _, main, hload, _, haccepted, _, hcompleted, _, _⟩ :=
    EquationSystem.solve_eq_ok (nodup_params hs) hout hresult hok
  cases hload
  obtain ⟨_, _, hpassed⟩ := EquationSystem.passed_of_accepted hd haccepted
  obtain rfl := (Prod.mk.inj (Except.ok.inj (halone.symm.trans hpassed.alone))).2
  obtain ⟨_, independent, _, haccepted', htest, hreport, _⟩ :=
    EquationSystem.solve_report load_stacked hout hresult hok
  obtain rfl := Option.some.inj (Except.ok.inj (haccepted.symm.trans haccepted'))
  have hselect' : (stackedReduced.eliminate.2.select .live).2 = [] := by rw [heliminate, hselect]
  obtain rfl := hpassed.testRank_of_select hselect' htest
  have hall : EquationSystem.Frame (fun _ _ => True) stackedReduced out.system := by
    have hframe := hpassed.frame
    rw [heliminate] at hframe
    exact (hframe.mono fun _ _ _ => trivial).trans (hcompleted.frame.mono fun _ _ _ => trivial)
  refine ⟨out, report, hout, hresult, hreport, ⟨fun q hq hstate => ?_, fun e he => ?_⟩, hall⟩
  · rw [hall.equations] at hq
    have hmem : q.state ∈ [EquationState.satisfied, .satisfied] :=
      List.mem_map_of_mem (f := (·.state)) hq
    rw [hstate] at hmem
    exact absurd hmem (by decide)
  · rw [hall.elimination] at he
    cases he

/-- All coordinates of the two points are free. The check marks them all, and the solve those of the
second point, from which the others have taken their values. -/
theorem isFree_stacked : (stacked.params.map (·.handle)).Nodup ∧
    IsExactRank stacked.settings.rankOf ∧
    stacked.settings.freeColumnTolerance = .number 0 ∧ ∃ report s₁ report' s₂,
      stacked.solveGroup ⟨1⟩ { findFree := true } .still = .ok (.ok report, s₁) ∧
      report.result = .okay ∧
      s₁.checkGroup ⟨1⟩ true .still = .ok (.ok report', s₂) ∧ report'.result = .okay ∧
      ∀ p ∈ stacked.params, s₂.isFree p.handle = true ∧
        (s₁.isFree p.handle = true ↔ p.handle = ⟨3⟩ ∨ p.handle = ⟨4⟩) := by
  have hs : (stacked.params.map (·.handle)).Nodup := by decide
  have hrank : IsExactRank stacked.settings.rankOf := Exact.isExactRank_rank
  have htolerance : stacked.settings.freeColumnTolerance = .number 0 := rfl
  obtain ⟨out, report, hout, hresult, hokay, hpivots, hframe⟩ := solve_stacked
  obtain ⟨_, s₁, hout', hsolve, _⟩ := exists_solveGroup hs ⟨1⟩ { findFree := true } .still
  obtain rfl := Except.ok.inj (hout.symm.trans hout')
  rw [hresult] at hsolve
  have hM := isJacobian_stacked out.value
  obtain ⟨hs₁, hsettings, u, _, hu, hhandles, hM'⟩ :=
    exists_load_of_solve hs hsolve hokay load_stacked hout hM
  have hl := EquationSystem.loads_of_load hu
  have hsettings' : u.settings = stacked.settings := hl.settings.trans hsettings
  have hindependent : u.independent = .ok true :=
    (EquationSystem.independent_iff_rank (hl.handlesDistinct (nodup_params hs₁))
      (hsettings' ▸ hrank) hM').2 ⟨by rw [hsettings']; decide, rank_stackedJacobian⟩
  obtain ⟨report', s₂, hcheck, hokay'⟩ : ∃ report' s₂,
      s₁.checkGroup ⟨1⟩ true .still = .ok (.ok report', s₂) ∧ report'.result = .okay :=
    (checkGroup_okay_iff hu).2 hindependent
  have hmarks := solveGroup_checkGroup_isFree hs hrank htolerance hsolve hokay rfl hcheck hokay'
    load_stacked hout hM hpivots
  refine ⟨hs, hrank, htolerance, report, s₁, report', s₂, hsolve, hokay, hcheck, hokay',
    fun p hp => ?_⟩
  obtain ⟨q, hq, hqp, hboth, _⟩ :=
    hmarks p hp ((by decide : ∀ p ∈ stacked.params, p.group = ⟨1⟩) p hp)
  have hfree : s₂.isFree p.handle = true := by
    obtain ⟨_, hfree⟩ := checkGroup_isFree hs₁ (hsettings ▸ hrank) (hsettings ▸ htolerance) hcheck
      hokay' hu hM'
    have hmem : p.handle ∈ u.params.map (·.handle) := by
      rw [hhandles, ← hqp]
      exact List.mem_map_of_mem hq
    obtain ⟨r, hr, hrp⟩ := List.mem_map.1 hmem
    obtain ⟨i, hi⟩ := List.getElem?_of_mem hr
    have hlt : i < 4 := hM'.params ▸ (List.getElem?_eq_some_iff.1 hi).1
    rw [← hrp, hfree ⟨i, hlt⟩ r hi]
    exact ⟨_, mulVec_stackedJacobian, one_ne_zero⟩
  refine ⟨hfree, hboth.trans ((and_iff_left hfree).trans ?_)⟩
  rw [← hqp]
  exact deferred_stacked hframe hq

end SketchSolver.Sketch
