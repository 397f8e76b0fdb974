import SketchSolver.Proofs.EquationSystem.Recovery
import SketchSolver.Proofs.EquationSystem.Rest
import SketchSolver.Proofs.EquationSystem.Solutions

/-!
# The passes over a system at rest

Each pass of a solve leaves a system at rest where it is, or fails. Substitution goes through, since
unknowns that are said to be equal have equal values (`Substitutes.atRest`). An equation that is
solved alone, or that an unknown is recovered from, gives the unknown the value it has, or none
(`AtRest.solveSingletons`, `AtRest.recover`).
-/

namespace SketchSolver

variable [Field K] [LinearOrder K] [PartialFunctions K] {v : ParamHandle → Exact K}

/-- An equation that holds can be solved again for the unknown `h`: in closed form if it has one,
and by Newton's iteration otherwise. -/
def Expr.Repeatable (v : ParamHandle → Exact K) (h : ParamHandle) (e : Expr (Exact K)) : Prop :=
  if e.fold.canIsolate h = true then e.fold.divisible v h = true else e.Differentiable v h

namespace EquationSystem

variable {s s' t : EquationSystem (Exact K)} {h : ParamHandle} {i k stage : Nat} {b : Bool}

/-- Every equation that has been solved alone can be solved again. -/
def AloneRepeatable (v : ParamHandle → Exact K) (s : EquationSystem (Exact K)) : Prop :=
  ∀ q ∈ s.equations, q.state = .solvedAlone → ∀ h, q.expr.referenced s.isUnknown = .exactly h →
    q.expr.Repeatable v h

/-- Whether equations can be solved again does not depend on the values that the system holds. -/
theorem aloneRepeatable_congr {moved : ParamState → Nat → Prop} (hframe : Frame moved s s') :
    AloneRepeatable v s' ↔ AloneRepeatable v s := by
  unfold AloneRepeatable
  rw [hframe.equations, hframe.isUnknown_eq]

/-! ## Substitution -/

/-- Substitution leaves a system at rest. -/
theorem Substitutes.atRest {f : ParamHandle → ParamHandle} (hsub : Substitutes f s s')
    (hs : AtRest v s) (hf : ∀ x, v (f x) = v x) : AtRest v s' := by
  refine hs.congr hsub.settings hsub.foreign ?_ fun q' hq' => ?_
  · refine hsub.params.imp fun p p' hp => ⟨hp.handle, hp.value, fun hstate r hr => ?_⟩
    rcases hp.settled with ⟨_, hlive⟩ | ⟨_, hroot⟩
    · rw [hlive] at hstate
      cases hstate
    · rw [hroot] at hr
      cases hr
      exact hf p.handle
  · obtain ⟨q, hq, hrel⟩ := forall₂_mem_of hsub.equations hq'
    rw [hrel.expr.eval]
    simp only [hf]
    exact hs.holds q hq

/-- Unknowns with one name have one value, if all equalities hold. -/
theorem AtRest.value_newName (hs : AtRest v s) (x : ParamHandle) : v (s.newName x) = v x := by
  refine eq_newName (fun q hq a b heq _ _ => ?_) x
  have hholds := hs.holds q hq
  rw [heq] at hholds
  obtain ⟨x, y, hx, hy, hxy⟩ := Exact.sub_eq_number.1 hholds
  obtain rfl := sub_eq_zero.1 hxy
  exact (show v a = .number x from hx).trans (show v b = .number x from hy).symm

/-! ## Equations of one unknown -/

/-- Setting an equation and an unknown aside leaves a system at rest. -/
theorem AtRest.setAside (hs : AtRest v s) (k i stage : Nat) : AtRest v (s.setAside k i stage) := by
  refine hs.congr rfl rfl ?_ ?_
  · refine forall₂_modify (List.forall₂_same.2 fun p hp => ⟨rfl, rfl, hs.copied p hp⟩) ?_
    exact fun _ _ _ _ hrel => ⟨hrel.1, hrel.2.1, nofun⟩
  · intro q hq
    obtain ⟨l, hl⟩ := List.getElem?_of_mem hq
    change (s.equations.modify k _)[l]? = some q at hl
    rw [List.getElem?_modify] at hl
    obtain ⟨q₀, hq₀, rfl⟩ := Option.map_eq_some_iff.1 hl
    have hholds := hs.holds q₀ (List.mem_of_getElem? hq₀)
    split <;> exact hholds

/-- Giving an unknown the value it has leaves the system where it is. -/
theorem AtRest.frame_updateParam (hs : AtRest v s) {p : Param (Exact K)}
    {f : Param (Exact K) → Param (Exact K)} (hp : s.params[i]? = some p)
    (hf : Param.Kept Anything p (f p)) (hvalue : (f p).value = v p.handle) :
    Frame (fun _ _ => False) s (s.updateParam i f) := by
  refine .updateParam fun p' hp' => ?_
  obtain rfl := Option.some.inj (hp.symm.trans hp')
  exact ⟨hf.handle, hf.root, hf.state, hf.stage, fun _ =>
    hvalue.trans (hs.param_value (List.mem_of_getElem? hp)).symm⟩

/-- Setting aside an equation that can be solved again leaves all that are set aside such. -/
theorem aloneRepeatable_setAside {q : Equation (Exact K)} (hs : AloneRepeatable v s)
    (hq : s.equations[k]? = some q) (hfix : s.fixedAlone? q = some (h, i)) :
    AloneRepeatable v (s.setAside k i stage) ↔ q.expr.Repeatable v h := by
  obtain ⟨_, href, _⟩ := fixedAlone?_eq_some hfix
  have hunknown : (s.setAside k i stage).isUnknown = s.isUnknown :=
    isUnknown_congr handles_setAside
  unfold AloneRepeatable
  rw [hunknown]
  constructor
  · intro hall
    exact hall _ (List.mem_of_getElem? (equations_setAside_self hq)) rfl h href
  · intro hq' q' hmem hstate x hx
    obtain ⟨l, hl⟩ := List.getElem?_of_mem hmem
    by_cases hkl : k = l
    · subst hkl
      rw [equations_setAside_self hq] at hl
      cases hl
      obtain rfl : h = x := by simpa using href.symm.trans hx
      exact hq'
    · rw [equations_setAside_of_ne hkl] at hl
      exact hs q' (List.mem_of_getElem? hl) hstate x hx

/-! ## Elimination and copying -/

/-- Elimination leaves a system at rest. -/
theorem AtRest.eliminate (hs : AtRest v s) (hsettings : s.eliminate.2.settings = s.settings)
    (hforeign : s.eliminate.2.foreign = s.foreign) : AtRest v s.eliminate.2 := by
  obtain ⟨hparams, hequations⟩ := s.eliminates_eliminate
  refine hs.congr hsettings hforeign ?_ fun q hq => ?_
  · refine forall₂_of_getElem? hparams.length_eq fun j p p' hp hp' => ?_
    obtain ⟨p₁, hp₁, hrel⟩ := forall₂_getElem? hparams hp
    obtain rfl := Option.some.inj (hp₁.symm.trans hp')
    refine ⟨hrel.handle, hrel.value, fun hstate => ?_⟩
    obtain rfl := hrel.eq_of_ne_eliminated (by simp [hstate])
    exact hs.copied p₁ (List.mem_of_getElem? hp) hstate
  · obtain ⟨q₀, hq₀, hrel⟩ := forall₂_mem_of hequations hq
    rw [hrel.expr]
    exact hs.holds q₀ hq₀

/-- Elimination takes nothing that is solved alone. -/
theorem AloneRepeatable.eliminate (hs : AloneRepeatable v s) : AloneRepeatable v s.eliminate.2 := by
  obtain ⟨hparams, hequations⟩ := s.eliminates_eliminate
  have hunknown : s.eliminate.2.isUnknown = s.isUnknown :=
    isUnknown_congr (map_handle_eq (fun _ _ hp => hp.handle) hparams)
  unfold AloneRepeatable
  rw [hunknown]
  intro q hq hstate
  obtain ⟨q₀, hq₀, hrel⟩ := forall₂_mem_of hequations hq
  obtain rfl := hrel.eq_of_ne_eliminated (by simp [hstate])
  exact hs q hq₀ hstate

/-- Substituted unknowns have the values of their roots already. -/
theorem AtRest.frame_copySubstituted (hs : AtRest v s) :
    Frame (fun _ _ => False) s s.copySubstituted := by
  unfold copySubstituted
  generalize List.range s.params.length = positions
  induction positions generalizing s with
  | nil => exact .refl _ s
  | cons i positions ih =>
    have hone : Frame (fun _ _ => False) s (s.copyFromRoot i) := by
      rcases s.copyFromRoot_cases i with hsame | ⟨p, r, hp, hstate, hroot, hcopy⟩
      · rw [hsame]
        exact .refl _ s
      · rw [hcopy]
        obtain ⟨x, hx, hr⟩ := Option.bind_eq_some_iff.1 hroot
        refine hs.frame_updateParam hp ⟨rfl, rfl, rfl, rfl, fun hm => absurd trivial hm⟩ ?_
        rw [← hs.copied p (List.mem_of_getElem? hp) hstate x hx, ← handle_of_param? hr]
        exact hs.param_value (mem_of_param? hr)
    exact hone.trans (ih (hs.frame hone))

/-! ## Equations solved again -/

section
variable [IsStrictOrderedRing K] [LawfulRoot K]

/-- At rest, an equation that is solved in closed form gives the value that its unknown has, or
none. -/
theorem AtRest.valueFrom {q : Equation (Exact K)} {x : Exact K} (hs : AtRest v s)
    (hq : q ∈ s.equations) (hcan : q.expr.fold.canIsolate h = true)
    (hx : s.valueFrom q.expr h = .ok x) :
    x = if q.expr.fold.divisible v h then v h else .undefined := by
  obtain ⟨rhs, hiso, rfl⟩ := valueFrom_eq_ok hcan hx
  rw [hs.value] at hiso ⊢
  exact Expr.eval_isolateFrom_present hcan hiso (Expr.eval_fold (hs.holds q hq)) rfl

/-- At rest, an equation that has been set aside is solved if it can be solved again, and nothing is
moved then. -/
theorem AtRest.solveAlone [TotalRoot K] {n : Nat} {q : Equation (Exact K)} {p : Param (Exact K)}
    (hs : AtRest v s) (hstaged : Staged n s) (hq : s.equations[k]? = some q)
    (hqstate : q.state = .solvedAlone) (hqstage : q.stage = stage)
    (hp : s.params[i]? = some p) (hpstate : p.state = .solvedAlone) (hpstage : p.stage = stage)
    (href : q.expr.referenced s.isUnknown = .exactly p.handle)
    (h : s.solveAlone q.expr p.handle i stage = .ok (b, s')) :
    (b = true ↔ q.expr.Repeatable v p.handle) ∧ (b = true → Frame (fun _ _ => False) s s') := by
  have hmem := List.mem_of_getElem? hq
  unfold Expr.Repeatable
  cases solveAlone_cases h with
  | @assigned x hcan hx hreasonable =>
    have hvalue := hs.valueFrom hmem hcan hx
    rw [if_pos hcan]
    cases hdivisible : q.expr.fold.divisible v p.handle with
    | false =>
      rw [hdivisible, if_neg Bool.false_ne_true] at hvalue
      rw [hvalue, Settings.isUnreasonable_undefined] at hreasonable
      cases hreasonable
    | true =>
      rw [hdivisible, if_pos rfl] at hvalue
      exact ⟨iff_of_true rfl rfl, fun _ => hs.frame_updateParam hp
        ⟨rfl, rfl, rfl, rfl, fun hm => absurd trivial hm⟩ hvalue⟩
  | rejected hcan hx hunreasonable _ _ =>
    have hvalue := hs.valueFrom hmem hcan hx
    rw [if_pos hcan]
    refine ⟨iff_of_false nofun fun hdivisible => ?_, nofun⟩
    rw [if_pos hdivisible, ← hs.param_value (List.mem_of_getElem? hp)] at hvalue
    rw [hvalue, hs.reasonable p (List.mem_of_getElem? hp)] at hunreasonable
    cases hunreasonable
  | unwritten _ hlinearize =>
    -- One equation may always be linearized.
    have hwritten := (s.linearize_fst (.alone stage)).2
      ((hstaged.length_select_alone stage).trans_lt hs.proper.single)
    rw [hlinearize] at hwritten
    cases hwritten
  | iterated hcan hlinearize hnewton =>
    rw [if_neg (by simp [hcan])]
    have hsel : ∀ {q' : Equation (Exact K)}, q' ∈ s.equations →
        ((Selection.alone stage).hasEquation q' = true ↔ q' = q) :=
      fun hq' => hqstage ▸ hstaged.hasEquation_alone_iff hq hqstate hq'
    have hlinearized := linearized_linearize (congrArg Prod.fst hlinearize)
    rw [hlinearize] at hlinearized
    obtain ⟨hiff, hstill⟩ := hs.newton hlinearized hnewton
    refine ⟨hiff.trans ⟨fun hall => ?_, fun hdiff q' hq' hsel' p' hp' hselp' => ?_⟩,
      fun hb => hlinearized.frame.trans (hstill hb)⟩
    · refine hall q hmem ((hsel hmem).2 rfl) p (List.mem_of_getElem? hp) ?_
      simp [Selection.hasParam, hpstate, hpstage]
    · obtain rfl := (hsel hq').1 hsel'
      -- The unknown of the column is the one that the only equation of the stage has fixed.
      obtain ⟨hstate', hstage'⟩ : p'.state = .solvedAlone ∧ p'.stage = stage := by
        simpa [Selection.hasParam] using hselp'
      obtain ⟨q'', hq'', hqstate'', hqstage'', href''⟩ := hstaged.fixed p' hp' hstate'
      obtain rfl := (hsel hq'').1 (by simp [Selection.hasEquation, hqstate'', hqstage'', hstage'])
      obtain hhandle : p'.handle = p.handle := by
        simpa using href''.symm.trans href
      rw [hhandle]
      exact hdiff

/-- At rest, the pass over the equations of one unknown goes through if all of them can be solved
again, and the system is at rest afterwards. -/
theorem AtRest.solveSingletons [TotalRoot K] (hs : AtRest v s)
    (hparams : ∀ p ∈ s.params, p.state ≠ .solvedAlone)
    (hequations : ∀ q ∈ s.equations, q.state ≠ .solvedAlone)
    (h : s.solveSingletons = .ok (b, s')) :
    (b = true ↔ AloneRepeatable v s') ∧ (b = true → AtRest v s') := by
  have hstep : ∀ {stage : Nat} {t : EquationSystem (Exact K)} {k : Nat} {q : Equation (Exact K)}
      {h : ParamHandle} {i : Nat} {t' : EquationSystem (Exact K)} {b : Bool},
      AtRest v t ∧ Staged stage t ∧ AloneRepeatable v t → t.equations[k]? = some q →
      t.fixedAlone? q = some (h, i) →
      (t.setAside k i stage).solveAlone q.expr h i stage = .ok (b, t') →
      (b = true ↔ AloneRepeatable v t') ∧ (b = true → AtRest v t') ∧ Staged (stage + 1) t' := by
    rintro stage t k q h i t' b ⟨ht, hstaged, hrepeatable⟩ hq hfix hsolve
    obtain ⟨hqlive, href, _, p, hp, rfl, hplive⟩ := fixedAlone?_eq_some hfix
    have haside := hstaged.setAside hq hfix
    have href' : q.expr.referenced (t.setAside k i stage).isUnknown = .exactly p.handle := by
      rw [isUnknown_congr handles_setAside, href]
    obtain ⟨hiff, hstill⟩ := (ht.setAside k i stage).solveAlone haside (equations_setAside_self hq)
      rfl rfl (params_setAside_self hp) rfl rfl href' hsolve
    have hframe := frame_solveAlone hsolve
    refine ⟨?_, fun hb => (ht.setAside k i stage).frame (hstill hb), haside.frame hframe⟩
    rw [aloneRepeatable_congr hframe, aloneRepeatable_setAside hrepeatable hq hfix]
    exact hiff
  rcases solveAloneFrom_cases
    (P := fun stage t => AtRest v t ∧ Staged stage t ∧ AloneRepeatable v t)
    (fun hinv hq hfix hsolve =>
      have hout := hstep hinv hq hfix hsolve
      ⟨hout.2.1 rfl, hout.2.2, hout.1.1 rfl⟩)
    ⟨hs, .initial hparams hequations, fun q hq hstate => absurd hstate (hequations q hq)⟩ h with
    ⟨rfl, _, hrest, _, hrepeatable⟩ | ⟨rfl, stage, t, k, q, h, i, hinv, hq, hfix, hsolve⟩
  · exact ⟨iff_of_true rfl hrepeatable, fun _ => hrest⟩
  · exact ⟨(hstep hinv hq hfix hsolve).1, nofun⟩

/-- At rest, unknowns are recovered if all their equations can be solved again, and nothing is moved
by it. -/
theorem AtRest.recoverFrom {result : Except EquationHandle Unit} :
    ∀ {entries : List (ParamHandle × Nat)} {s : EquationSystem (Exact K)}, AtRest v s →
      (∀ e ∈ entries, s.isUnknown e.1 = true ∧ s.Solvable e) →
      recoverFrom entries s = .ok (result, s') →
      Frame (fun _ _ => False) s s' ∧ (result = .ok () ↔ ∀ e ∈ entries, ∀ q,
        s.equations[e.2]? = some q → q.expr.fold.divisible v e.1 = true)
  | [], s, _, _, h => by
    cases h
    exact ⟨.refl _ s', iff_of_true rfl nofun⟩
  | (h, k) :: rest, s, hs, hentries, hrun => by
    obtain ⟨hunknown, q, hq, hcan⟩ := hentries (h, k) (List.mem_cons_self ..)
    rw [EquationSystem.recoverFrom] at hrun
    simp only [hq] at hrun
    obtain ⟨x, hx, hrun⟩ := bind_eq_ok.1 hrun
    have hvalue := hs.valueFrom (List.mem_of_getElem? hq) hcan hx
    have hhead : (∀ q', s.equations[k]? = some q' → q'.expr.fold.divisible v h = true) ↔
        q.expr.fold.divisible v h = true :=
      ⟨fun hall => hall q hq, fun hd q' hq' => Option.some.inj (hq.symm.trans hq') ▸ hd⟩
    rw [List.forall_mem_cons]
    simp only [hhead]
    cases hdivisible : q.expr.fold.divisible v h with
    | true =>
      rw [hdivisible, if_pos rfl] at hvalue
      obtain ⟨p, hp, rfl⟩ := isUnknown_iff.1 hunknown
      obtain ⟨i, hi⟩ := List.getElem?_of_mem hp
      have hreasonable := hs.reasonable p hp
      rw [hs.param_value hp, ← hvalue] at hreasonable
      rw [if_neg (by simp [hreasonable]),
        (hs.handlesDistinct.position?_eq_some_iff).2 ⟨p, hi, rfl⟩] at hrun
      have hone := hs.frame_updateParam (f := fun p => { p with value := x, known := true }) hi
        ⟨rfl, rfl, rfl, rfl, fun hm => absurd trivial hm⟩ hvalue
      have hrest : ∀ e ∈ rest, (s.updateParam i fun p => { p with value := x, known := true
          }).isUnknown e.1 = true ∧ (s.updateParam i fun p => { p with value := x, known := true
          }).Solvable e := by
        intro e he
        obtain ⟨hunknown', hsolvable⟩ := hentries e (List.mem_cons_of_mem _ he)
        exact ⟨hone.isUnknown_eq ▸ hunknown', hsolvable⟩
      obtain ⟨hframe, hiff⟩ := AtRest.recoverFrom (hs.frame hone) hrest hrun
      refine ⟨hone.trans hframe, hiff.trans ?_⟩
      simp only [true_and]
      rfl
    | false =>
      rw [hdivisible, if_neg Bool.false_ne_true] at hvalue
      rw [hvalue, if_pos Settings.isUnreasonable_undefined] at hrun
      cases hrun
      exact ⟨.refl _ s', iff_of_false (by simp) (by simp)⟩

end

end EquationSystem

end SketchSolver
