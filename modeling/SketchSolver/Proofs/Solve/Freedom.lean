import SketchSolver.Proofs.Solve.ReducedJacobian
import SketchSolver.Proofs.Solve.Search
import SketchSolver.Proofs.Solve.Written

/-!
# Degrees of freedom

A solve that succeeds reports the degrees of freedom of the main system, and these are the ones of
the whole group (`solve_dof`): the number of its unknowns less the rank of its Jacobian at the
values written back. The main system is what the passes have left, so its Jacobian is a reduced one
(`Merged.rank_add`), and it was evaluated where the iteration was accepted, which for the equations
that are left makes no difference to where the solve has ended.

Without substitution, the passes have settled as many equations as unknowns (`Prepared.balance`), so
no equation of the main system is redundant if and only if none of the group is. A check of the
group finds the same out for itself (`independent_iff_rank`), but gives up on a group with too many
equations, where a solve counts those only that are left.
-/

namespace SketchSolver.EquationSystem

section
variable [Field K] [LinearOrder K] [PartialFunctions K]

/-! ## The whole group -/

section
variable {s s' : EquationSystem (Exact K)} {v : ParamHandle → Exact K} {m n : Nat}
  {M : Matrix (Fin m) (Fin n) K}

/-- A Jacobian is a matter of the left sides and the handles. -/
theorem IsJacobian.congr (h : s.IsJacobian v M)
    (hequations : s'.equations.map (·.expr) = s.equations.map (·.expr))
    (hhandles : s'.params.map (·.handle) = s.params.map (·.handle)) : s'.IsJacobian v M where
  equations := by
    have hlength := congrArg List.length hequations
    rw [List.length_map, List.length_map] at hlength
    exact hlength.trans h.equations
  params := by
    have hlength := congrArg List.length hhandles
    rw [List.length_map, List.length_map] at hlength
    exact hlength.trans h.params
  entry k x q p hq hp := by
    have hq' := congrArg (·[(k : Nat)]?) hequations
    have hp' := congrArg (·[(x : Nat)]?) hhandles
    simp only [List.getElem?_map, hq, hp, Option.map_some] at hq' hp'
    obtain ⟨q₀, hq₀, hexpr⟩ := Option.map_eq_some_iff.1 hq'.symm
    obtain ⟨p₀, hp₀, hhandle⟩ := Option.map_eq_some_iff.1 hp'.symm
    rw [← hexpr, ← hhandle]
    exact h.entry k x q₀ p₀ hq₀ hp₀

/-- Clearing the tags leaves the Jacobian. -/
theorem IsJacobian.clearTags (h : s.IsJacobian v M) : s.clearTags.IsJacobian v M :=
  h.congr (by simp [EquationSystem.clearTags, Function.comp_def])
    (by simp [EquationSystem.clearTags, Function.comp_def])

/-- All of a system is live once it has been cleared. -/
theorem IsJacobian.isPartJacobian (hM : s.IsJacobian v M) :
    s.clearTags.IsPartJacobian .live v M := by
  have hcleared := hM.clearTags
  have hselect := s.select_clearTags
  rw [hM.equations, hM.params] at hselect
  refine ⟨by rw [hselect, List.length_range], by rw [hselect, List.length_range], ?_⟩
  intro i j k c q p hk hq hc hp
  obtain rfl : (i : Nat) = k := by simpa [hselect] using hk
  obtain rfl : (j : Nat) = c := by simpa [hselect] using hc
  exact hcleared.entry i j q p hq hp

/-- The equations of a system are independent if and only if its Jacobian has full row rank, unless
there are too many of them. -/
theorem independent_iff_rank (hd : s.HandlesDistinct) (hrank : IsExactRank s.settings.rankOf)
    (hM : s.IsJacobian s.lookup.value M) :
    s.independent = .ok true ↔ m < s.settings.maxEquations ∧ M.rank = m := by
  have hpart := hM.isPartJacobian
  rw [independent_eq, Except.ok.injEq, Bool.and_eq_true, beq_iff_eq, linearize_fst, hpart.rows]
  refine and_congr_right fun hlt => ?_
  have hwritten : (s.clearTags.linearize .live).1 = true :=
    (linearize_fst _ _).2 (by rwa [hpart.rows])
  obtain ⟨_, hrows, _⟩ := (s.clearTags.linearize_spec (fun _ _ => False) .live).2 hwritten
  rw [hrows, hpart.rows]
  exact Eq.congr_left (rankAt_linearize hd.clearTags hrank hwritten hpart)

end

/-! ## The main system -/

section
variable {f : ParamHandle → ParamHandle} {t s₁ s₂ s₃ s' z : EquationSystem (Exact K)} {m n : Nat}
  {M : Matrix (Fin m) (Fin n) K}

/-- Without substitution, no unknown is substituted, and no equation is satisfied. -/
theorem Substitutes.unsubstituted (hsub : Substitutes f t t) (hd : t.HandlesDistinct)
    (ht : t.Fresh) (halone : t.solveSingletons = .ok (true, s₂)) :
    (∀ p ∈ s₂.eliminate.2.params, p.state ≠ .substituted) ∧
      ∀ q ∈ s₂.eliminate.2.equations, q.state ≠ .satisfied := by
  obtain ⟨⟨stage, hs⟩, ⟨round, hr⟩, _⟩ := hsub.settled_recorded hd ht halone
  constructor
  · intro p₃ hp₃
    obtain ⟨p₂, hp₂, h₃⟩ := forall₂_mem_of hr.params hp₃
    obtain ⟨p₁, hp₁, _, _, h₂⟩ := forall₂_mem_of hs.params hp₂
    have hstate₂ : p₂.state ≠ .substituted := by
      rcases h₂ with ⟨hsame, _⟩ | ⟨_, halone⟩
      · simp [hsame, (ht.params p₁ hp₁).1]
      · simp [halone]
    rcases h₃ with rfl | ⟨_, _, rfl⟩
    · exact hstate₂
    · exact nofun
  · intro q₃ hq₃
    obtain ⟨q₂, hq₂, h₃⟩ := forall₂_mem_of hr.equations hq₃
    obtain ⟨q₁, hq₁, h₂⟩ := forall₂_mem_of hs.equations hq₂
    have hstate₂ : q₂.state ≠ .satisfied := by
      rcases h₂ with rfl | ⟨_, _, rfl⟩
      · simp [ht.equations q₂ hq₁]
      · exact nofun
    rcases h₃ with rfl | ⟨_, _, rfl⟩
    · exact hstate₂
    · exact nofun

/-- The Jacobian of all that has been loaded is merged and reduced as the passes have settled
unknowns and equations. -/
theorem Passed.exists_merged (hp : Passed f t s₁ s₂ s₃ s') (hd : t.HandlesDistinct)
    (ht : t.Fresh) (hnamed : f = t.newName ∨ f = id) (hc : Completed t s' z)
    (hM : t.IsJacobian z.lookup.value M) (hpivots : z.Pivots z.lookup.value) :
    ∃ handle root, Merged f t s₂.eliminate.2 z.lookup.value M handle root := by
  obtain ⟨hprepared, _⟩ := prepared_eliminate hd ht hp.substitutes hp.alone
  have ha := hp.accepted hd ht
  have hds' : s'.HandlesDistinct := hd.congr ha.prepared.handles_eq
  have hall : Frame (fun _ _ => True) s₂.eliminate.2 z :=
    (hp.frame.mono fun _ _ _ => trivial).trans (hc.frame.mono fun _ _ _ => trivial)
  obtain ⟨handle, hhandles⟩ :
      ∃ handle : Fin n → ParamHandle, t.params.map (·.handle) = List.ofFn handle := by
    have hlength : (t.params.map (·.handle)).length = n := by rw [List.length_map, hM.params]
    subst hlength
    exact ⟨_, (List.ofFn_get _).symm⟩
  have hroot : ∀ x, ∃ y, handle y = f (handle x) := by
    intro x
    obtain ⟨p, hp, hph⟩ := exists_param_of_handles (hprepared.handles_eq.trans hhandles) x
    obtain ⟨r, hr, hname, _⟩ := hprepared.named p (List.mem_of_getElem? hp)
    rw [← hph, ← hname, ← List.mem_ofFn, ← hhandles, ← hprepared.handles_eq]
    exact List.mem_map_of_mem hr
  choose root hroot using hroot
  refine ⟨handle, root, hd, hprepared, hp.substitutes.paired hd ht hp.alone, hnamed, hhandles,
    hroot, hM, hc.value_name ha hds', ?_, ?_⟩
  · rw [← hall.equations, ← hall.isUnknown_eq]
    exact hpivots.alone
  · rw [← hall.equations, ← hall.elimination]
    exact hpivots.eliminated

/-- The equations that are left refer to no unknown that has moved since acceptance. -/
theorem Passed.value_eq_of_live (hp : Passed f t s₁ s₂ s₃ s') (hd : t.HandlesDistinct)
    (ht : t.Fresh) (hc : Completed t s' z) : ∀ q ∈ s₂.eliminate.2.equations, q.state = .live →
      ∀ x, q.expr.dependsOn x = true → s'.lookup.value x = z.lookup.value x := by
  intro q hq hlive x hx
  have ha := hp.accepted hd ht
  refine (hc.frame.value_eq_of_forall fun p hp' hph hm => ?_).symm
  rw [← hp.frame.equations] at hq
  have hnot := ha.prepared.not_dependsOn (hd.congr ha.prepared.handles_eq) hq (Or.inl hlive) hp' hm
  rw [hph, hx] at hnot
  cases hnot

/-- What the test of the rank at acceptance finds, in terms of the whole Jacobian at the values that
are written back. -/
theorem Passed.testRank (hp : Passed f t s₁ s₂ s₃ s') (hd : t.HandlesDistinct) (ht : t.Fresh)
    (hnamed : f = t.newName ∨ f = id) (hc : Completed t s' z)
    (hrank : IsExactRank t.settings.rankOf) (hM : t.IsJacobian z.lookup.value M)
    (hpivots : z.Pivots z.lookup.value) {b : Bool} {s'' : EquationSystem (Exact K)}
    (htest : s'.testRank = .ok (b, s'')) :
    s''.dof = (n : Int) - M.rank ∧ (s₁ = t → (b = true ↔ M.rank = m)) := by
  obtain ⟨handle, root, hmerged⟩ := hp.exists_merged hd ht hnamed hc hM hpivots
  have hframe := hp.frame
  have hform := hp.sameForm.trans hp.iterated.sameForm
  obtain ⟨hcolumns, hrows, _⟩ :=
    (s₂.eliminate.2.linearize_spec (fun _ _ => False) .live).2 hp.written
  have hslots : ∀ d ∈ s'.linearization.partials,
      d.value.SlotsIn fun h i => s'.position? h = some i := by
    rw [hform.partials, hframe.position?_eq]
    exact fun _ hmem => slotsIn_linearize hmem
  obtain ⟨hb, hdof⟩ := testRank_eq_rankAt hslots htest
  rw [rankAt_congr hform, hform.rows, hrows, hframe.settings] at hb
  rw [rankAt_congr hform, hform.columns, hcolumns, hframe.settings] at hdof
  have hvalue := hp.value_eq_of_live hd ht hc
  have hsettings : s₂.eliminate.2.settings = t.settings := hmerged.prepared.settings
  have hsum := hmerged.rank_add (by rwa [hsettings]) hp.written hvalue
  refine ⟨by omega, ?_⟩
  rintro rfl
  obtain ⟨hparams, hequations⟩ := hp.substitutes.unsubstituted hd ht hp.alone
  have hbalance :=
    hmerged.prepared.balance hmerged.handlesDistinct hmerged.paired hparams hequations
  obtain ⟨hlength, hlength'⟩ := s₂.eliminate.2.length_select .live
  change _ = s₂.eliminate.2.params.countP (·.state == .live) at hlength
  change _ = s₂.eliminate.2.equations.countP (·.state == .live) at hlength'
  rw [← hlength, ← hlength', ← hmerged.prepared.params.length_eq,
    ← hmerged.prepared.equations.length_eq, hM.params, hM.equations] at hbalance
  rw [hb, beq_iff_eq]
  omega

/-- If no equation is left, none is redundant. -/
theorem Passed.testRank_of_select (hp : Passed f t s₁ s₂ s₃ s')
    (hnone : (s₂.eliminate.2.select .live).2 = []) {b : Bool} {s'' : EquationSystem (Exact K)}
    (htest : s'.testRank = .ok (b, s'')) : b = true := by
  have hform := hp.sameForm.trans hp.iterated.sameForm
  obtain ⟨_, hrows, _⟩ := (s₂.eliminate.2.linearize_spec (fun _ _ => False) .live).2 hp.written
  have hslots : ∀ d ∈ s'.linearization.partials,
      d.value.SlotsIn fun h i => s'.position? h = some i := by
    rw [hform.partials, hp.frame.position?_eq]
    exact fun _ hmem => slotsIn_linearize hmem
  obtain ⟨hb, _⟩ := testRank_eq_rankAt hslots htest
  rw [hb, rankAt, hform.rows, hrows, hnone]
  rfl

end

/-! ## Solves and checks -/

variable [Document δ (Exact K)] {s t z u : EquationSystem (Exact K)} {doc doc' : δ}
  {g : GroupHandle} {policy : Policy} {options : SolveOptions} {watch : Stopwatch}
  {out : Outcome δ (Exact K)} {report : Report} {m n : Nat} {M : Matrix (Fin m) (Fin n) K}

/-- A check of the group succeeds. -/
def CheckSucceeds (s : EquationSystem (Exact K)) (doc : δ) (g : GroupHandle)
    (findBad findFree : Bool) (watch : Stopwatch) : Prop :=
  ∃ out report, s.check doc g findBad findFree watch = .ok out ∧ out.result = .ok report ∧
    report.result = .okay

/-- A check of a group that loads what a solve has loaded, at the values that the solve has found,
succeeds if and only if there are not too many equations and the Jacobian has full row rank. -/
theorem checkSucceeds_iff_rank (hload : s.load doc g none = .ok (policy, u, doc'))
    (hagree : (t.withValuesOf z).Agree u) (hd : t.HandlesDistinct)
    (hrank : IsExactRank t.settings.rankOf) (hhandles : z.params.map (·.handle) =
      t.params.map (·.handle)) (hforeign : z.foreign = t.foreign)
    (hM : t.IsJacobian z.lookup.value M) {findBad findFree : Bool} :
    s.CheckSucceeds doc g findBad findFree watch ↔ m < t.settings.maxEquations ∧ M.rank = m := by
  have hd' : (t.withValuesOf z).HandlesDistinct := hd.congr (handles_withValuesOf t z)
  have hM' : (t.withValuesOf z).IsJacobian (t.withValuesOf z).lookup.value M := by
    rw [value_withValuesOf hhandles hforeign]
    exact hM.congr rfl (handles_withValuesOf t z)
  have hcheck : s.check doc g findBad findFree watch =
      u.checkLoaded doc' g policy findBad findFree watch := by
    rw [check, hload]
  rw [CheckSucceeds, hcheck, checkLoaded_okay_iff, independent_congr hagree,
    independent_iff_rank hd' hrank hM']
  rfl

/-- What a solve that succeeds has found in its last test of the rank is what it reports. -/
theorem solve_report (hload : s.load doc g none = .ok (policy, t, doc'))
    (h : s.solve doc g options watch = .ok out) (hresult : out.result = .ok report)
    (hok : report.result.isOkay = true) :
    ∃ s₁ independent s₂, t.accepted policy options = .ok (some s₁) ∧
      s₁.testRankUnless policy.suppressDof = .ok (independent, s₂) ∧
      report.result = .ofConverged independent ∧ report.dof = s₂.dof := by
  unfold solve at h
  rw [hload] at h
  obtain ⟨s₁, independent, s₂, haccepted, htest, hfinish⟩ := solveLoaded_eq_ok h hresult hok
  obtain ⟨s₃, doc₁, found, _, hrecover, _⟩ := finish_cases hfinish hresult
  obtain ⟨rfl, _⟩ := recoverAndWrite_report hrecover hresult hok
  exact ⟨s₁, independent, s₂, haccepted, htest, rfl, rfl⟩

/-- The degrees of freedom that a solve reports are the number of all unknowns of the group less the
rank of the Jacobian of all its equations at the values written back. Without substitution, it finds
no redundant equation if and only if that Jacobian has full row rank; and a check at these values
succeeds if and only if this is so and there are not too many equations for it. -/
theorem solve_dof (hd : ((Document.params doc g).map Prod.fst).Nodup)
    (hrank : IsExactRank s.settings.rankOf)
    (hload : s.load doc g none = .ok (policy, t, doc')) (hsuppress : policy.suppressDof = false)
    (h : s.solve doc g options watch = .ok out) (hresult : out.result = .ok report)
    (hok : report.result.isOkay = true) (hM : t.IsJacobian out.value M)
    (hpivots : out.system.Pivots out.value) :
    report.dof = (n : Int) - M.rank ∧
      (policy.allowRedundant = false → options.strict = true →
        (report.result = .okay ↔ M.rank = m) ∧
        ∀ (checker u : EquationSystem (Exact K)) (doc₁ doc₂ : δ) (policy' : Policy),
          checker.load doc₁ g none = .ok (policy', u, doc₂) → (t.withValuesOf out.system).Agree u →
          ∀ (findBad findFree : Bool) (watch' : Stopwatch),
            checker.CheckSucceeds doc₁ g findBad findFree watch' ↔
              m < s.settings.maxEquations ∧ report.result = .okay) := by
  obtain ⟨policy₀, t₀, doc₀, _, s', hload₀, hd', haccepted, _, hcompleted, hvalue, _⟩ :=
    solve_eq_ok hd h hresult hok
  obtain ⟨rfl, rfl, rfl⟩ : policy₀ = policy ∧ t₀ = t ∧ doc₀ = doc' := by
    simpa using hload₀.symm.trans hload
  obtain ⟨s₁, independent, s₂, haccepted₁, htest, hokay, hdof⟩ := solve_report hload h hresult hok
  obtain rfl : s₁ = s' := Option.some.inj (Except.ok.inj (haccepted₁.symm.trans haccepted))
  have hloads := loads_of_load hload
  have hdt : t₀.HandlesDistinct := hloads.handlesDistinct hd
  have hfresh := fresh_clearTags t₀
  obtain ⟨u₁, u₂, u₃, hpassed, hsame⟩ := accepted_passes hdt haccepted
  have hnamed := t₀.clearTags.names_cases policy₀ options
  rw [hvalue] at hM hpivots
  rw [hsuppress] at htest
  have hrank' : IsExactRank t₀.settings.rankOf := by rwa [hloads.settings]
  obtain ⟨hdof', hindependent⟩ := hpassed.testRank hdt.clearTags hfresh hnamed hcompleted hrank'
    hM.clearTags hpivots htest
  refine ⟨hdof.trans hdof', fun hallow hstrict => ?_⟩
  have hiff : report.result = .okay ↔ M.rank = m := by
    rw [hokay, ← hindependent (hsame (by simp [hsuppress, hallow, hstrict]))]
    cases independent <;> simp [SolveResult.ofConverged]
  refine ⟨hiff, fun checker u doc₁ doc₂ policy' hload' hagree findBad findFree watch' => ?_⟩
  have hprepared := hpassed.accepted hdt.clearTags hfresh
  have hend := hcompleted.prepared hprepared hd'
  have hhandles : out.system.params.map (·.handle) = t₀.params.map (·.handle) := by
    rw [hend.handles_eq]
    simp [clearTags, Function.comp_def]
  rw [hiff, checkSucceeds_iff_rank hload' hagree hdt hrank' hhandles hend.foreign hM,
    hloads.settings]

end

/-- The rational settings with exact ranks. -/
def rankSettings : Settings (Exact ℚ) :=
  { Settings.rational with rankOf := Exact.rank }

/-- The Jacobian of the linkage at its solution. -/
def linkageJacobian : Matrix (Fin 4) (Fin 5) ℚ :=
  !![1, -1, 0, 0, 0;
    0, 0, 1, 0, 0;
    0, 1, -5 / 2, -1, -3;
    0, 0, 0, 1, 1]

/-- The linkage with the values that a solve finds. -/
def linkageSolved : EquationTable (Exact ℚ) :=
  { linkage with
    params := [(1, 10), (2, 10), (3, 3), (4, 5 / 2), (5, 5 / 2)].map fun (n, x) =>
      { handle := ⟨n⟩, value := .number x } }

/-- The linkage has one degree of freedom, whether or not an unknown has been substituted, and its
Jacobian has full row rank. A check at the values found agrees. -/
theorem solve_dof_linkage : ((Document.params linkage EquationTable.group).map Prod.fst).Nodup ∧
    IsExactRank rankSettings.rankOf ∧ ∀ strict : Bool, ∃ policy t doc' out report,
      (empty rankSettings).load linkage EquationTable.group none = .ok (policy, t, doc') ∧
      policy.suppressDof = false ∧
      solve (empty rankSettings) linkage EquationTable.group { strict } .still = .ok out ∧
      out.result = .ok report ∧ report.result.isOkay = true ∧
      t.IsJacobian out.value linkageJacobian ∧ out.system.Pivots out.value ∧
      report.dof = 1 ∧ linkageJacobian.rank = 4 ∧
      (strict = true → (empty rankSettings).CheckSucceeds linkageSolved EquationTable.group false
        false .still) := by
  have hd : ((Document.params linkage EquationTable.group).map Prod.fst).Nodup := by decide +kernel
  have hrank : IsExactRank rankSettings.rankOf := Exact.isExactRank_rank
  refine ⟨hd, hrank, fun strict => ?_⟩
  have hrun : (((empty rankSettings).load linkage EquationTable.group none).toOption.bind
      fun (policy, t, _) => (solve (empty rankSettings) linkage EquationTable.group { strict }
        .still).toOption.map fun out => (
          [!policy.suppressDof, !policy.allowRedundant, t.foreign.isEmpty,
            decide ((t.withValuesOf out.system).params.map (fun p => (p.handle, p.value)) =
              linkageSolved.params.map fun p => (p.handle, p.value)),
            decide (t.IsJacobian out.value linkageJacobian),
            decide (out.system.Pivots out.value)],
          out.result.toOption.map fun report => (report.result, report.dof))) =
      some (List.replicate 6 true, some (.okay, 1)) := by
    cases strict <;> decide +kernel
  obtain ⟨⟨policy, t, doc'⟩, hload, hrun⟩ := Option.bind_eq_some_iff.1 hrun
  obtain ⟨out, hout, heq⟩ := Option.map_eq_some_iff.1 hrun
  obtain ⟨⟨hsuppress, hallow, hforeign, hvalues, hM, hpivots⟩, hresult⟩ := by
    simpa only [Prod.mk.injEq, List.replicate_succ, List.replicate_zero, List.cons.injEq,
      Bool.not_eq_true', decide_eq_true_eq, List.isEmpty_iff, and_true] using heq
  obtain ⟨report, hreport, heq⟩ := Option.map_eq_some_iff.1 hresult
  obtain ⟨hokay, hdof⟩ := Prod.ext_iff.1 heq
  rw [toOption_eq_some] at hload hout hreport
  have hok : report.result.isOkay = true := by
    rw [show report.result = .okay from hokay]
    rfl
  obtain ⟨hfree, hcheck⟩ := solve_dof hd hrank hload hsuppress hout hreport hok hM hpivots
  have hfull : linkageJacobian.rank = 4 := by
    simp only at hdof
    omega
  refine ⟨policy, t, doc', out, report, hload, hsuppress, hout, hreport, hok, hM, hpivots, hdof,
    hfull, fun hstrict => ?_⟩
  obtain ⟨⟨policy', u, doc₂⟩, hload'⟩ :
      ∃ loaded, (empty rankSettings).load linkageSolved EquationTable.group none = .ok loaded :=
    ⟨_, rfl⟩
  have hloads := loads_of_load hload
  have hloads' := loads_of_load hload'
  have hagree : (t.withValuesOf out.system).Agree u := by
    refine .of_params (hloads'.settings.trans hloads.settings.symm)
      (hloads'.equations.trans hloads.equations.symm) ?_ ?_
    · rw [hvalues, hloads'.params]
      rfl
    · have hnone : u.foreign = [] := by
        cases hload'
        rfl
      exact hnone.trans hforeign.symm
  have hlt : 4 < (empty rankSettings).settings.maxEquations := by decide
  exact ((hcheck hallow hstrict).2 _ u _ doc₂ policy' hload' hagree false false .still).2
    ⟨hlt, hokay⟩

/-- Two parameters, each with an equation that fixes it. -/
def pinned : EquationTable (Exact ℚ) where
  params := [1, 2].map fun n => { handle := ⟨n⟩, value := .number 0 }
  constraints :=
    [{ handle := ⟨1⟩, coincident := false, equations := [.param ⟨1⟩ - .const (.number 1)] },
      { handle := ⟨2⟩, coincident := false, equations := [.param ⟨2⟩ - .const (.number 2)] }]

/-- Settings by which two equations are too many. -/
def pinnedSettings : Settings (Exact ℚ) :=
  { rankSettings with maxEquations := 2 }

/-- If two equations are too many, a solve without substitution still succeeds, since it solves both
of them alone, and the Jacobian has full row rank; but a check at the values written back gives
up. -/
theorem check_pinned : ((Document.params pinned EquationTable.group).map Prod.fst).Nodup ∧
    IsExactRank pinnedSettings.rankOf ∧ ∃ policy t doc' out report checked report',
      (empty pinnedSettings).load pinned EquationTable.group none = .ok (policy, t, doc') ∧
      policy.suppressDof = false ∧ policy.allowRedundant = false ∧
      solve (empty pinnedSettings) pinned EquationTable.group { strict := true } .still = .ok out ∧
      out.result = .ok report ∧ report.result = .okay ∧
      t.IsJacobian out.value (1 : Matrix (Fin 2) (Fin 2) ℚ) ∧ out.system.Pivots out.value ∧
      (1 : Matrix (Fin 2) (Fin 2) ℚ).rank = 2 ∧
      check (empty pinnedSettings) out.document EquationTable.group false false .still =
        .ok checked ∧
      checked.result = .ok report' ∧ report'.result = .tooManyUnknowns := by
  have hrun : (((empty pinnedSettings).load pinned EquationTable.group none).toOption.bind
      fun (policy, t, _) => (solve (empty pinnedSettings) pinned EquationTable.group
        { strict := true } .still).toOption.bind fun out => (check (empty pinnedSettings)
          out.document EquationTable.group false false .still).toOption.map fun checked => (
            [!policy.suppressDof, !policy.allowRedundant,
              decide (t.IsJacobian out.value (1 : Matrix (Fin 2) (Fin 2) ℚ)),
              decide (out.system.Pivots out.value)],
            out.result.toOption.map (·.result), checked.result.toOption.map (·.result))) =
      some (List.replicate 4 true, some .okay, some .tooManyUnknowns) := by decide +kernel
  obtain ⟨⟨policy, t, doc'⟩, hload, hrun⟩ := Option.bind_eq_some_iff.1 hrun
  obtain ⟨out, hout, hrun⟩ := Option.bind_eq_some_iff.1 hrun
  obtain ⟨checked, hchecked, heq⟩ := Option.map_eq_some_iff.1 hrun
  obtain ⟨⟨hsuppress, hallow, hM, hpivots⟩, hresult, hresult'⟩ := by
    simpa only [Prod.mk.injEq, List.replicate_succ, List.replicate_zero, List.cons.injEq,
      Bool.not_eq_true', decide_eq_true_eq, and_true] using heq
  obtain ⟨report, hreport, hokay⟩ := Option.map_eq_some_iff.1 hresult
  obtain ⟨report', hreport', hmany⟩ := Option.map_eq_some_iff.1 hresult'
  rw [toOption_eq_some] at hload hout hchecked hreport hreport'
  have hfull : (1 : Matrix (Fin 2) (Fin 2) ℚ).rank = 2 := Matrix.rank_one
  exact ⟨by decide +kernel, Exact.isExactRank_rank, policy, t, doc', out, report, checked, report',
    hload, hsuppress, hallow, hout, hreport, hokay, hM, hpivots, hfull, hchecked, hreport', hmany⟩

end SketchSolver.EquationSystem
