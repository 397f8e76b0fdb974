import SketchSolver.EquationTable
import SketchSolver.Proofs.EquationSystem.RestingPasses
import SketchSolver.Proofs.Solve.Exits

/-!
# Solving a group that is satisfied

A solve of a group whose equations all hold comes back to the values it has, or fails: every pass
leaves the system at rest, if it goes through. It goes through if no pass divides by zero
(`Regular`): no equation is solved in closed form by dividing by a factor that is zero, and none is
iterated on where it has no derivative. So a product of which one factor is zero holds, whatever the
other factor is, and the solve fails nevertheless if it solves for that other factor. With
polynomials nothing else can go wrong (`regular_of_sameEquations`).
-/

namespace SketchSolver.EquationSystem

variable [Field K] [LinearOrder K] [PartialFunctions K] {s s' s₁ t main : EquationSystem (Exact K)}
  {v : ParamHandle → Exact K}

/-- What has been solved at the values `v` can be solved there again: the equations solved alone,
those of the main system, and those that unknowns are recovered from. -/
structure Regular (v : ParamHandle → Exact K) (s : EquationSystem (Exact K)) : Prop where
  alone : AloneRepeatable v s
  live : ∀ q ∈ s.equations, q.state = .live → ∀ p ∈ s.params, p.state = .live →
    q.expr.Differentiable v p.handle
  eliminated : ∀ e ∈ s.elimination.flatten, ∀ q, s.equations[e.2]? = some q →
    q.expr.fold.divisible v e.1 = true

/-- What is regular is a matter of equations and states. -/
theorem regular_congr {moved : ParamState → Nat → Prop} (hframe : Frame moved s s') :
    Regular v s' ↔ Regular v s := by
  have hparams : ∀ P : ParamHandle → Prop,
      (∀ p ∈ s'.params, p.state = .live → P p.handle) ↔
        ∀ p ∈ s.params, p.state = .live → P p.handle := by
    intro P
    constructor
    · intro hall p hp hstate
      obtain ⟨p', hp', hk⟩ := hframe.kept_mem hp
      exact hk.handle ▸ hall p' hp' (hk.state.trans hstate)
    · intro hall p' hp' hstate
      obtain ⟨p, hp, hk⟩ := hframe.kept_of_mem hp'
      exact hk.handle ▸ hall p hp (hk.state.symm.trans hstate)
  have hlive : ∀ q : Equation (Exact K),
      (∀ p ∈ s'.params, p.state = .live → q.expr.Differentiable v p.handle) ↔
        ∀ p ∈ s.params, p.state = .live → q.expr.Differentiable v p.handle :=
    fun q => hparams fun h => q.expr.Differentiable v h
  constructor
  · rintro ⟨halone, hdiff, helim⟩
    rw [hframe.equations] at hdiff helim
    rw [hframe.elimination] at helim
    exact ⟨(aloneRepeatable_congr hframe).1 halone,
      fun q hq hstate => (hlive q).1 (hdiff q hq hstate), helim⟩
  · rintro ⟨halone, hdiff, helim⟩
    rw [← hframe.equations] at hdiff helim
    rw [← hframe.elimination] at helim
    exact ⟨(aloneRepeatable_congr hframe).2 halone,
      fun q hq hstate => (hlive q).2 (hdiff q hq hstate), helim⟩

/-- Polynomials that hold are regular, if they can be divided by all their factors. -/
theorem regular_of_sameEquations (hsame : SameEquations s s')
    (hholds : ∀ q ∈ s.equations, q.expr.eval (.byHandle v) = .number 0)
    (hpolynomial : ∀ q ∈ s.equations, q.expr.isPolynomial = true)
    (hdivisible : ∀ q ∈ s.equations, ∀ h, q.expr.fold.divisible v h = true) : Regular v s' := by
  have hall : ∀ q ∈ s'.equations, ∀ h,
      q.expr.fold.divisible v h = true ∧ q.expr.Differentiable v h := by
    intro q hq h
    obtain ⟨q₀, hq₀, heq⟩ := List.mem_map.1 (hsame ▸ List.mem_map_of_mem hq)
    rw [← (Prod.mk.inj heq).2]
    exact ⟨hdivisible q₀ hq₀ h,
      Expr.differentiable_of_isPolynomial (hpolynomial q₀ hq₀) (hholds q₀ hq₀)⟩
  refine ⟨fun q hq _ h _ => ?_, fun q hq _ p _ _ => (hall q hq p.handle).2,
    fun e _ q hq => (hall q (List.mem_of_getElem? hq) e.1).1⟩
  unfold Expr.Repeatable
  split
  · exact (hall q hq h).1
  · exact (hall q hq h).2

/-! ## The main system -/

/-- A system is at rest with all its marks taken off. -/
theorem atRest_clearTags (hproper : t.settings.Proper) (hd : t.HandlesDistinct)
    (hreasonable : ∀ p ∈ t.params, t.settings.isUnreasonable p.value = false)
    (hholds : ∀ q ∈ t.equations, q.expr.eval (.byHandle t.lookup.value) = .number 0) :
    AtRest t.lookup.value t.clearTags where
  proper := hproper
  handlesDistinct := hd.clearTags
  value := t.lookup_clearTags
  reasonable p hp := by
    obtain ⟨p₀, hp₀, rfl⟩ := List.mem_map.1 hp
    exact hreasonable p₀ hp₀
  holds q hq := by
    obtain ⟨q₀, hq₀, rfl⟩ := List.mem_map.1 hq
    exact hholds q₀ hq₀
  copied p hp hstate := by
    obtain ⟨p₀, _, rfl⟩ := List.mem_map.1 hp
    cases hstate

/-- Substitution, where it is done, leaves a system at rest. -/
theorem AtRest.simplified (ht : AtRest v t.clearTags) (policy : Policy) (options : SolveOptions) :
    AtRest v (t.simplified policy options) ∧
      ∃ f, Substitutes f t.clearTags (t.simplified policy options) := by
  have hlive : ∀ p ∈ t.clearTags.params, p.state = .live := fun p hp =>
    (t.fresh_clearTags.params p hp).1
  unfold EquationSystem.simplified
  split
  · have hsub := substitutes_substitute ht.handlesDistinct hlive
    exact ⟨hsub.atRest ht ht.value_newName, _, hsub⟩
  · exact ⟨ht, _, .refl hlive⟩

/-- The system that is left when equations have been solved alone and unknowns eliminated. -/
structure Reduced (v : ParamHandle → Exact K) (s : EquationSystem (Exact K)) : Prop where
  atRest : AtRest v s
  alone : AloneRepeatable v s
  recoverable : ∀ e ∈ s.elimination.flatten, s.isUnknown e.1 = true ∧ s.Solvable e

/-- A system that is left stays so while nothing moves. -/
theorem Reduced.frame (hs : Reduced v s) (hframe : Frame (fun _ _ => False) s s') :
    Reduced v s' where
  atRest := hs.atRest.frame hframe
  alone := (aloneRepeatable_congr hframe).2 hs.alone
  recoverable := by
    unfold Solvable
    rw [hframe.elimination, hframe.isUnknown_eq, hframe.equations]
    exact hs.recoverable

variable [IsStrictOrderedRing K] [LawfulRoot K] [TotalRoot K]

/-- Solving alone and eliminating leaves a reduced system at rest, or fails at an equation that
cannot be solved again. -/
theorem AtRest.reduced {policy : Policy} {options : SolveOptions} {b : Bool}
    (ht : AtRest v t.clearTags)
    (halone : (t.simplified policy options).solveSingletons = .ok (b, s₁)) :
    (b = true → Reduced v s₁.eliminate.2 ∧ SameUnknowns t s₁.eliminate.2) ∧
      (b = false → ¬ AloneRepeatable v s₁) := by
  obtain ⟨hs, f, hsub⟩ := ht.simplified policy options
  obtain ⟨hparams, hequations⟩ := hsub.states t.fresh_clearTags
  obtain ⟨hiff, hrest⟩ := hs.solveSingletons
    (fun p hp => by rcases hparams p hp with h | h <;> simp [h])
    (fun q hq => by rcases hequations q hq with h | h <;> simp [h]) halone
  constructor
  · rintro rfl
    obtain ⟨⟨_, hsettled⟩, ⟨_, hrecorded⟩, _, hreplayable⟩ :=
      hsub.settled_recorded ht.handlesDistinct t.fresh_clearTags halone
    have hsame : SameUnknowns (t.simplified policy options) s₁.eliminate.2 :=
      ⟨hrecorded.settings.trans hsettled.settings, hrecorded.handles_eq.trans hsettled.handles_eq⟩
    refine ⟨⟨(hrest rfl).eliminate hrecorded.settings hrecorded.foreign, (hiff.1 rfl).eliminate,
      fun e he => ⟨?_, ?_⟩⟩, (t.sameUnknowns_simplified policy options).trans hsame⟩
    · obtain ⟨p, hp, hhandle, _⟩ := (hreplayable.mem_iff e.1).1 (List.mem_map_of_mem he)
      exact isUnknown_iff.2 ⟨p, hp, hhandle⟩
    · obtain ⟨q, hq, _, hcan⟩ := hreplayable.defining e he
      exact ⟨q, hq, hcan⟩
  · rintro rfl
    exact fun hall => Bool.false_ne_true (hiff.2 hall)

variable [Document δ (Exact K)] {doc d : δ} {g : GroupHandle} {policy : Policy}
  {options : SolveOptions} {watch : Stopwatch} {out : Outcome δ (Exact K)} {report : Report}
  {independent : Bool}

omit [TotalRoot K] in
/-- At rest, the unknowns of a reduced system are recovered and written back as they are, or one of
them has an equation that divides by zero. -/
theorem Reduced.recoverAndWrite (hs : Reduced v s) {report₀ : Report}
    (hok : report₀.result.isOkay = true)
    (h : s.recoverAndWrite d g report₀ independent = .ok out) (hresult : out.result = .ok report) :
    Frame (fun _ _ => False) s out.system ∧
      (report.result.isOkay = true ↔ ∀ e ∈ s.elimination.flatten, ∀ q,
        s.equations[e.2]? = some q → q.expr.fold.divisible v e.1 = true) ∧
      (report.result.isOkay = true → out.writes = out.system.writes) := by
  unfold EquationSystem.recoverAndWrite at h
  obtain ⟨⟨recovered, s₁⟩, hrecover, h⟩ := bind_eq_ok.1 h
  have hcopied := hs.atRest.frame_copySubstituted
  have hs' := hs.frame hcopied
  obtain ⟨hframe, hiff⟩ := hs'.atRest.recoverFrom hs'.recoverable hrecover
  rw [hcopied.elimination, hcopied.equations] at hiff
  rw [← hiff]
  cases recovered with
  | error defining =>
    cases h
    cases hresult
    refine ⟨hcopied.trans hframe, iff_of_false ?_ nofun, ?_⟩ <;>
      simp [SolveResult.isOkay_ofDiverged]
  | ok _ =>
    cases h
    cases hresult
    have hlast := (hs'.atRest.frame hframe).frame_copySubstituted
    exact ⟨(hcopied.trans hframe).trans hlast, iff_of_true hok rfl, fun _ => rfl⟩

/-- However a solve of a group at rest ends, it is okay if what has been solved can be solved again,
and then the values written back are those of the system. -/
theorem AtRest.exit (ht : AtRest v t.clearTags)
    (hsmall : ∀ s₁, (t.simplified policy options).solveSingletons = .ok (true, s₁) →
      s₁.eliminate.2.countLive.2 < t.settings.maxEquations)
    (hexit : Exit t doc g policy options watch out) (hresult : out.result = .ok report) :
    SameEquations (t.simplified policy options) out.system ∧
      (report.result.isOkay = true ↔ Regular v out.system) ∧
      (report.result.isOkay = true → AtRest v out.system ∧ SameUnknowns t out.system ∧
        out.writes = out.system.writes) := by
  cases hexit with
  | alone h =>
    cases hresult
    have hnot := (ht.reduced h).2 rfl
    exact ⟨.solveSingletons h, iff_of_false nofun fun hr => hnot hr.alone, nofun⟩
  | @tooMany s₁ s₂ h hlinearize =>
    obtain ⟨_, hsame⟩ := (ht.reduced h).1 rfl
    have hfits := s₁.eliminate.2.linearize_fst .live
    rw [hlinearize, (s₁.eliminate.2.length_select .live).2, hsame.settings] at hfits
    cases hfits.2 (hsmall s₁ h)
  | diverged h hnewton =>
    cases hresult
    obtain ⟨s₁, halone, hwritten, hframe, hform⟩ := mainSystem_eq_ok h
    obtain ⟨hs, _⟩ := (ht.reduced halone).1 rfl
    obtain ⟨hiff, _⟩ := hs.atRest.newton ⟨hwritten, hframe, hform⟩ hnewton
    have hmoved := (frame_newton hnewton).1
    have hequations := SameEquations.reduced halone
    refine ⟨(hequations.trans (.of_frame hframe)).trans (.of_frame hmoved),
      iff_of_false (by simp [divergence, SolveResult.isOkay_ofDiverged]) fun hr => ?_,
      fun hok => ?_⟩
    · have hregular := (regular_congr hframe).1 ((regular_congr hmoved).1 hr)
      refine Bool.false_ne_true (hiff.2 fun q hq hsel p hp hselp => ?_)
      exact hregular.live q hq (by simpa [Selection.hasEquation] using hsel) p hp
        (by simpa [Selection.hasParam] using hselp)
    · simp [divergence, SolveResult.isOkay_ofDiverged] at hok
  | converged h hnewton hrank hfinish =>
    obtain ⟨s₁, halone, hwritten, hframe, hform⟩ := mainSystem_eq_ok h
    obtain ⟨hs, hsame⟩ := (ht.reduced halone).1 rfl
    obtain ⟨hiff, hstill⟩ := hs.atRest.newton ⟨hwritten, hframe, hform⟩ hnewton
    obtain ⟨htest, _⟩ := testRankUnless_eq_ok (fun _ _ => False) hrank
    obtain ⟨s₂, _, _, hmarked, hwrite, _⟩ := finish_cases hfinish hresult
    have hreached := ((hframe.trans (hstill rfl)).trans htest).trans hmarked
    obtain ⟨hlast, hokay, hwrites⟩ := (hs.frame hreached).recoverAndWrite
      (SolveResult.isOkay_ofConverged _) hwrite hresult
    have hend := hreached.trans hlast
    rw [hreached.elimination, hreached.equations] at hokay
    rw [regular_congr hend, hokay]
    refine ⟨(SameEquations.reduced halone).trans (.of_frame hend),
      ⟨fun helim => ⟨hs.alone, fun q hq hstate p hp hpstate => ?_, helim⟩,
      Regular.eliminated⟩, fun hok => ⟨hs.atRest.frame hend, hsame.trans hend.sameUnknowns, ?_⟩⟩
    · exact hiff.1 rfl q hq (by simpa [Selection.hasEquation] using hstate) p hp
        (by simpa [Selection.hasParam] using hpstate)
    · exact hwrites (hokay.2 hok)

omit [IsStrictOrderedRing K] [LawfulRoot K] [TotalRoot K] in
/-- What is written back of a system at rest is what the document has. -/
theorem AtRest.writesSame {except : Option ConstraintHandle} (hs : AtRest v s')
    (hload : s.load doc g except = .ok (policy, t, d)) (ht : AtRest v t.clearTags)
    (hsame : SameUnknowns t s') : WritesSame doc g s'.writes := by
  have hwrites : ∀ {u : EquationSystem (Exact K)}, AtRest v u →
      u.writes.map (fun w => (w.handle, w.value)) =
        (u.params.map (·.handle)).map fun h => (h, v h) := by
    intro u hu
    rw [writes, List.map_map, List.map_map]
    exact List.map_congr_left fun p hp => congrArg (p.handle, ·) (hu.param_value hp)
  have hloaded : WritesSame doc g t.clearTags.writes := writesSame_of_frame hload (.refl _ _)
  have hclear : t.clearTags.params.map (·.handle) = t.params.map (·.handle) := by simp [clearTags]
  rw [WritesSame, hwrites ht, hclear] at hloaded
  rw [WritesSame, hwrites hs, hsame.handles, hloaded]

/-- A group that is satisfied stays put, if it is solved: where all equations that are loaded hold
at the values of the document, a solve is okay exactly if no pass of it divides by zero, and then
every unknown is written back with the value it has. -/
theorem solve_satisfied (hproper : s.settings.Proper)
    (hd : ((Document.params doc g).map Prod.fst).Nodup)
    (hpolicy : ∀ doc', Relabelled g doc doc' → ∃ policy', Document.policy doc' g = .ok policy')
    (hload : s.load doc g none = .ok (policy, t, d))
    (hreasonable : ∀ e ∈ Document.params doc g, s.settings.isUnreasonable e.2 = false)
    (hholds : ∀ q ∈ t.equations, q.expr.eval (.byHandle t.lookup.value) = .number 0)
    (hsmall : ∀ s₁, (t.simplified policy options).solveSingletons = .ok (true, s₁) →
      s₁.eliminate.2.countLive.2 < s.settings.maxEquations) :
    ∃ out report, s.solve doc g options watch = .ok out ∧ out.result = .ok report ∧
      SameEquations (t.simplified policy options) out.system ∧
      (report.result.isOkay = true ↔ Regular t.lookup.value out.system) ∧
      (report.result.isOkay = true → WritesSame doc g out.writes) := by
  have hloads := loads_of_load hload
  obtain ⟨out, hsolve, _⟩ := s.yields_solve doc g options watch
  obtain ⟨report, hresult⟩ : ∃ report, out.result = .ok report := by
    rcases ends_solve hsolve with ⟨hdoc, herror⟩ | ⟨_, _, _⟩ | ⟨_, _, _, _⟩
    · obtain ⟨_, hok⟩ := hpolicy _ hdoc
      rw [hok] at herror
      cases herror
    · exact ⟨_, rfl⟩
    · exact ⟨_, rfl⟩
  have hsolved := hsolve
  simp only [solve, hload] at hsolved
  have ht : AtRest t.lookup.value t.clearTags := by
    refine atRest_clearTags (hloads.settings ▸ hproper) (hloads.handlesDistinct hd) ?_ hholds
    rw [hloads.params, hloads.settings]
    intro p hp
    obtain ⟨e, he, rfl⟩ := List.mem_map.1 hp
    exact hreasonable e he
  rw [← hloads.settings] at hsmall
  obtain ⟨hequations, hiff, hok⟩ := ht.exit hsmall (solveLoaded_exit hsolved) hresult
  refine ⟨out, report, hsolve, hresult, hequations, hiff, fun h => ?_⟩
  obtain ⟨hs, hsame, hwrites⟩ := hok h
  rw [hwrites]
  exact hs.writesSame hload ht hsame

/-- The settings over the reals are proper. -/
theorem proper_realSettings : realSettings.Proper where
  tolerance := ⟨_, rfl, by norm_num⟩
  magnitude := ⟨_, rfl, by norm_num⟩
  scale := ⟨_, rfl⟩
  single := by decide

/-- A group with the equation `p₁ p₂ - p₃`, which holds. -/
noncomputable def standing : EquationTable (Exact ℝ) where
  params := [{ handle := ⟨1⟩, value := .number 5 }]
  foreign := [(⟨2⟩, .number 2), (⟨3⟩, .number 10)]
  constraints :=
    [{ handle := ⟨1⟩, coincident := false,
        equations := [.param ⟨1⟩ * .param ⟨2⟩ - .param ⟨3⟩] }]

/-- The equation can be divided by both factors if they are not zero. -/
theorem divisible_factors {v : ParamHandle → Exact ℝ} {x y : ℝ} {h : ParamHandle}
    (h₁ : v ⟨1⟩ = .number x) (h₂ : v ⟨2⟩ = .number y) (hx : x ≠ 0) (hy : y ≠ 0) :
    (Expr.param ⟨1⟩ * .param ⟨2⟩ - .param ⟨3⟩ : Expr (Exact ℝ)).fold.divisible v h = true := by
  have hne : ∀ {x : ℝ}, x ≠ 0 → ((Exact.number x : Exact ℝ) == 0) = false := decide_eq_false
  have h₁' : (Expr.param ⟨1⟩).eval (.byHandle v) = .number x := h₁
  have h₂' : (Expr.param ⟨2⟩).eval (.byHandle v) = .number y := h₂
  change (Expr.binary .sub (.binary .mul (.param ⟨1⟩) (.param ⟨2⟩)) (.param ⟨3⟩)).divisible v h = _
  simp [Expr.divisible, BinaryOp.undoable, h₁', h₂', hne hx, hne hy]

/-- The equation is solved for one factor by dividing by the other, which is not zero. -/
theorem solve_standing : realSettings.Proper ∧ ∃ policy t d out report,
    (empty realSettings).load standing EquationTable.group none = .ok (policy, t, d) ∧
    (∀ q ∈ t.equations, q.expr.eval (.byHandle t.lookup.value) = .number 0) ∧
    solve (empty realSettings) standing EquationTable.group {} .still = .ok out ∧
    out.result = .ok report ∧ report.result.isOkay = true ∧ Regular t.lookup.value out.system ∧
    WritesSame standing EquationTable.group out.writes := by
  have hdistinct : ((Document.params standing EquationTable.group).map
      Prod.fst).Nodup := List.nodup_singleton _
  obtain ⟨policy, t, d, hload, ⟨h₁, h₂, h₃⟩, hsimplified, hexpr⟩ : ∃ policy t d,
      (empty realSettings).load standing EquationTable.group none = .ok (policy, t, d) ∧
      (t.lookup.value ⟨1⟩ = .number 5 ∧ t.lookup.value ⟨2⟩ = .number 2 ∧
        t.lookup.value ⟨3⟩ = .number 10) ∧
      (t.simplified policy {}).equations = t.equations ∧
      t.equations.map (·.expr) = [.param ⟨1⟩ * .param ⟨2⟩ - .param ⟨3⟩] :=
    ⟨_, _, _, rfl, ⟨rfl, rfl, rfl⟩, rfl, rfl⟩
  have hequation : ∀ q ∈ t.equations, q.expr = .param ⟨1⟩ * .param ⟨2⟩ - .param ⟨3⟩ := by
    intro q hq
    exact List.mem_singleton.1 (hexpr ▸ List.mem_map_of_mem hq)
  have hholds : ∀ q ∈ t.equations, q.expr.eval (.byHandle t.lookup.value) = .number 0 := by
    intro q hq
    rw [hequation q hq]
    change t.lookup.value ⟨1⟩ * t.lookup.value ⟨2⟩ - t.lookup.value ⟨3⟩ = _
    rw [h₁, h₂, h₃, Exact.number_mul, Exact.number_sub]
    norm_num
  have hdivisible : ∀ q ∈ t.equations, ∀ h, q.expr.fold.divisible t.lookup.value h = true := by
    intro q hq h
    rw [hequation q hq]
    exact divisible_factors h₁ h₂ (by norm_num) (by norm_num)
  have hreasonable : ∀ e ∈ Document.params standing EquationTable.group,
      realSettings.isUnreasonable e.2 = false := by
    intro e he
    obtain rfl := List.mem_singleton.1 he
    refine decide_eq_false (not_lt.2 ?_ : ¬ (100000000000 : ℝ) < |5|)
    norm_num [abs_of_pos]
  have hsmall : ∀ s₁, (t.simplified policy {}).solveSingletons = .ok (true, s₁) →
      s₁.eliminate.2.countLive.2 < realSettings.maxEquations := by
    intro s₁ h
    have hlength := congrArg List.length (SameEquations.reduced h)
    have hone := congrArg List.length hexpr
    simp only [List.length_map, List.length_singleton, hsimplified] at hlength hone
    refine (List.countP_le_length).trans_lt ?_
    rw [hlength, hone]
    decide
  have hpolicy : ∀ doc', Relabelled EquationTable.group standing doc' →
      ∃ policy', Document.policy doc' EquationTable.group = .ok policy' := by
    intro doc' hdoc
    rw [hdoc.eq_table]
    exact ⟨_, rfl⟩
  obtain ⟨out, report, hsolve, hresult, hsame, hiff, hwrites⟩ : ∃ out report,
      solve (empty realSettings) standing EquationTable.group {} .still = .ok out ∧
      out.result = .ok report ∧ SameEquations (t.simplified policy {}) out.system ∧
      (report.result.isOkay = true ↔ Regular t.lookup.value out.system) ∧
      (report.result.isOkay = true → WritesSame standing EquationTable.group out.writes) :=
    solve_satisfied proper_realSettings hdistinct hpolicy hload hreasonable hholds hsmall
  rw [← hsimplified] at hholds hdivisible hequation
  have hregular := regular_of_sameEquations hsame hholds
    (fun q hq => by rw [hequation q hq]; rfl) hdivisible
  have hok := hiff.2 hregular
  rw [hsimplified] at hholds
  exact ⟨proper_realSettings, policy, t, d, out, report, hload, hholds, hsolve, hresult, hok,
    hregular, hwrites hok⟩

end SketchSolver.EquationSystem
