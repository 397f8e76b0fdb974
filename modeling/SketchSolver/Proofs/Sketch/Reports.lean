import SketchSolver.Proofs.Sketch.Frame
import SketchSolver.Proofs.Solve.Blame
import SketchSolver.Proofs.Solve.Freedom
import SketchSolver.Proofs.Solve.Trials

/-!
# What a report says

A report is filled in on many ways out of a call, from a system that is tested more than once. It is
consistent on all of them (`Report.Consistent`): the rank and the degrees of freedom go together,
and what is blamed goes with the result.

Rank and degrees of freedom are set where the rank is tested, which counts the unknowns that are
live there (`counted_testRank`), or to none of both where a group is loaded and before the first
test. No pass in between touches them (`SameRank`) or makes an unknown live, so they are about the
unknowns that are live in the end. Constraints are blamed one by one and each once, or found by a
search that tries each of the group once (`Lists.findConflicts`).
-/

namespace SketchSolver

/-- The degrees of freedom of so many unknowns for a rank, or `-1` if it is not known. -/
def degreesOfFreedom (unknowns : Nat) : Option Nat → Int
  | none => -1
  | some rank => unknowns - rank

/-- A report on so many live unknowns, which may blame some constraints, does not contradict
itself. -/
structure Report.Consistent (unknowns : Nat) (constraints : List ConstraintHandle)
    (report : Report) : Prop where
  dof_eq_neg_one_iff : report.dof = -1 ↔ report.rank = none
  dof_add_rank : ∀ rank, report.rank = some rank →
    0 ≤ report.dof ∧ report.dof + rank = unknowns
  bad_of_okay : report.result = .okay → report.bad = []
  result_of_timedOut : report.timedOut = true →
    report.result = .redundantOkay ∨ report.result = .redundantDidntConverge
  of_tooManyUnknowns : report.result = .tooManyUnknowns → report.rank = none ∧ report.bad = []
  nodup_bad : report.bad.Nodup
  bad_subset : report.bad ⊆ constraints

/-! ## Ranks -/

section
variable [Scalar α]

omit [Scalar α] in
/-- An exchange of places makes a list neither longer nor shorter. -/
theorem length_exchangeFirst (place : Nat) (l : List β) :
    (exchangeFirst place l).length = l.length := by
  unfold exchangeFirst
  split
  · rfl
  · split
    · rfl
    · split
      · simp
      · rfl

/-- However many steps are made, there are as many columns as before. -/
theorem length_triangularize : ∀ (steps : Nat) (columns : List (PivotedColumn α)),
    (triangularize steps columns).2.length = columns.length
  | 0, _ => rfl
  | steps + 1, columns => by
    rw [triangularize]
    have hlength := length_exchangeFirst (longestColumn columns).1 columns
    generalize longestColumn columns = longest at hlength ⊢
    obtain ⟨place, best⟩ := longest
    simp only at hlength ⊢
    split
    · next hnil =>
      rw [← hlength, hnil]
    · next pivot others hcons =>
      rw [← hlength, hcons]
      split
      · rfl
      · split
        · rfl
        · simp only [List.length_cons, length_triangularize steps, List.length_map]

/-- The numerical rank of a matrix is not more than the number of its columns. -/
theorem PivotedQR.rank_factorize_le (A : DenseMatrix α) :
    (PivotedQR.factorize A).rank ≤ A.width := by
  have hwidth : (PivotedQR.factorize A).width = A.width := by
    simp [PivotedQR.factorize, PivotedQR.width, length_triangularize, DenseMatrix.width]
  have hdiagonal : (PivotedQR.factorize A).diagonal.length ≤ A.width := by
    rw [PivotedQR.diagonal, List.length_map, List.length_range, PivotedQR.diagonalLength, hwidth]
    exact min_le_right _ _
  exact (List.takeWhile_sublist _).length_le.trans hdiagonal

end

namespace EquationSystem

section
variable {s s' s'' t : EquationSystem α} {n : Nat}

/-! ## The rank that has been found -/

/-- The rank and the degrees of freedom go together and are about `n` unknowns. -/
structure Counted (n : Nat) (s : EquationSystem α) : Prop where
  dof : s.dof = degreesOfFreedom n s.rank
  rank_le : ∀ rank, s.rank = some rank → rank ≤ n

/-- The rank and the degrees of freedom are those that were found before. -/
structure SameRank (s s' : EquationSystem α) : Prop where
  rank : s'.rank = s.rank
  dof : s'.dof = s.dof

/-- A system has the rank that it has. -/
theorem SameRank.refl (s : EquationSystem α) : SameRank s s :=
  ⟨rfl, rfl⟩

/-- A rank that is kept by two passes is kept by both together. -/
theorem SameRank.trans (h : SameRank s s') (h' : SameRank s' s'') : SameRank s s'' :=
  ⟨h'.rank.trans h.rank, h'.dof.trans h.dof⟩

/-- What has been counted stays so where the rank is kept. -/
theorem Counted.sameRank (hs : s.Counted n) (h : SameRank s s') : s'.Counted n where
  dof := by rw [h.dof, h.rank, hs.dof]
  rank_le := by rw [h.rank]; exact hs.rank_le

/-- If no rank has been found, it may be about any unknowns. -/
theorem counted_of_none (hrank : s.rank = none) (hdof : s.dof = -1) (n : Nat) : s.Counted n where
  dof := by rw [hrank, hdof]; rfl
  rank_le := by simp [hrank]

/-- What leaves the states of unknowns leaves as many of them live. -/
theorem Frame.countLive_eq {moved : ParamState → Nat → Prop} (h : Frame moved s s') :
    s'.countLive.1 = s.countLive.1 := by
  have hstates : s'.params.map (·.state) = s.params.map (·.state) :=
    map_eq_of_forall₂ (fun _ _ hk => hk.state) h.params
  have hcount : ∀ t : EquationSystem α,
      t.countLive.1 = (t.params.map (·.state)).countP (· == .live) := by
    intro t
    rw [List.countP_map]
    rfl
  rw [hcount, hcount, hstates]

/-! ## Passes leave it -/

/-- Substitution keeps the rank. -/
theorem sameRank_substitute (s : EquationSystem α) : SameRank s s.substitute.2 := by
  unfold substitute
  split
  · exact .refl s
  · exact ⟨rfl, rfl⟩

/-- Clearing the tags and substituting keep the rank. -/
theorem sameRank_simplified (s : EquationSystem α) (policy : Policy) (options : SolveOptions) :
    SameRank s (s.simplified policy options) := by
  have hcleared : SameRank s s.clearTags := ⟨rfl, rfl⟩
  unfold simplified
  split
  · exact hcleared.trans s.clearTags.sameRank_substitute
  · exact hcleared

variable [Scalar α]

/-- A linearization keeps the rank, whether or not it is written. -/
theorem sameRank_linearize {sel : Selection} {written : Bool}
    (h : s.linearize sel = (written, s')) : SameRank s s' := by
  unfold linearize at h
  obtain ⟨columns, rows⟩ := s.select sel
  simp only at h
  split at h
  · cases h
    exact ⟨rfl, rfl⟩
  · cases h
    exact ⟨rfl, rfl⟩

/-- Evaluating the residuals keeps the rank. -/
theorem sameRank_evalResiduals (h : s.evalResiduals = .ok s') : SameRank s s' := by
  rw [evalResiduals_eq_ok h]
  exact ⟨rfl, rfl⟩

/-- Moving unknowns keeps the rank, however far it gets. -/
theorem sameRank_move : ∀ (steps : List (Nat × α)) (s : EquationSystem α),
    SameRank s (s.move steps).2
  | [], s => .refl s
  | (i, dx) :: rest, s => by
    rw [move]
    split
    · exact sameRank_move rest s
    · next p _ =>
      have hone : SameRank s (s.updateParam i fun p' => { p' with value := p.value - dx }) :=
        ⟨rfl, rfl⟩
      simp only
      split
      · exact hone
      · exact hone.trans (sameRank_move rest _)

section
variable {step : EquationSystem α → Except SolverError (List α)} {x : List α} {b : Bool}
  {further : Nat}

/-- A step keeps the rank. -/
theorem TakesStep.sameRank (h : TakesStep step s t x b s') : SameRank s s' := by
  have hmove := sameRank_move (t.weigh.linearization.columns.zip x) (t.weigh.keepStep x)
  rw [h.move] at hmove
  obtain ⟨_, rfl⟩ := evalJacobian_eq_ok h.jacobian
  exact ⟨hmove.rank, hmove.dof⟩

/-- A round leaves the rank, if the rounds after it do. -/
theorem Round.sameRank (h : Round step further s b s')
    (hrest : ∀ n t, further = n + 1 → iterate step n t = .ok (b, s') → SameRank t s') :
    SameRank s s' := by
  cases h with
  | stepless hjac =>
    obtain ⟨_, rfl⟩ := evalJacobian_eq_ok hjac
    exact ⟨rfl, rfl⟩
  | unreasonable htake => exact htake.sameRank
  | last htake hres => exact htake.sameRank.trans (sameRank_evalResiduals hres)
  | again htake hres _ hfurther hiterate =>
    exact (htake.sameRank.trans (sameRank_evalResiduals hres)).trans
      (hrest _ _ hfurther hiterate)

/-- An iteration keeps the rank, however many rounds it takes. -/
theorem sameRank_iterate (h : iterate step further s = .ok (b, s')) : SameRank s s' := by
  induction further generalizing s with
  | zero => exact (iterate_round h).sameRank nofun
  | succ n ih =>
    refine (iterate_round h).sameRank fun m t hm ht => ?_
    cases hm
    exact ih ht

/-- Newton's iteration keeps the rank. -/
theorem sameRank_newton (h : s.newton = .ok (b, s')) : SameRank s s' := by
  obtain ⟨t, hres, h⟩ := bind_eq_ok.1 h
  exact (sameRank_evalResiduals hres).trans (sameRank_iterate h)

/-- Solving an equation alone keeps the rank. -/
theorem sameRank_solveAlone {e : Expr α} {x : ParamHandle} {i stage : Nat}
    (h : s.solveAlone e x i stage = .ok (b, s')) : SameRank s s' := by
  cases solveAlone_cases h with
  | assigned => exact ⟨rfl, rfl⟩
  | @rejected y written t _ _ _ _ hlinearize hres =>
    have hset : SameRank s (s.updateParam i fun p => { p with value := y }) := ⟨rfl, rfl⟩
    have hlinearized := hset.trans (sameRank_linearize hlinearize)
    cases written with
    | true => exact hlinearized.trans (sameRank_evalResiduals (hres.1 rfl))
    | false =>
      rw [hres.2 rfl]
      exact hlinearized
  | unwritten _ hlinearize => exact sameRank_linearize hlinearize
  | iterated _ hlinearize hnewton =>
    exact (sameRank_linearize hlinearize).trans (sameRank_newton hnewton)

/-- The pass over the equations of one unknown keeps the rank. -/
theorem sameRank_solveSingletons (h : s.solveSingletons = .ok (b, s')) : SameRank s s' := by
  have hset : ∀ (t : EquationSystem α) (k i stage : Nat), SameRank t (t.setAside k i stage) :=
    fun _ _ _ _ => ⟨rfl, rfl⟩
  rcases solveAloneFrom_cases (P := fun _ t => SameRank s t)
    (fun ht _ _ hsolve => (ht.trans (hset ..)).trans (sameRank_solveAlone hsolve)) (.refl s) h with
    ⟨_, _, hsame⟩ | ⟨_, _, t, _, _, _, _, ht, _, _, hsolve⟩
  · exact hsame
  · exact (ht.trans (hset ..)).trans (sameRank_solveAlone hsolve)

end

/-! ## Tests of the rank -/

section
variable {policy : Policy} {options : SolveOptions} {b : Bool}

/-- A test of the rank is about the unknowns of the columns. -/
theorem counted_testRank (hrank : ∀ A, s.settings.rankOf A ≤ A.width)
    (h : s.testRank = .ok (b, s')) : s'.Counted s.linearization.columns.length := by
  obtain ⟨t, hjac, h⟩ := bind_eq_ok.1 h
  cases h
  obtain ⟨values, _, hjac⟩ := bind_eq_ok.1 hjac
  cases hjac
  refine ⟨rfl, fun rank hsome => ?_⟩
  cases hsome
  unfold jacobianRank
  split
  · exact Nat.zero_le _
  · exact (hrank _).trans_eq DenseMatrix.width_ofFn

/-- A test of the rank of what is live counts the live unknowns, and so does one that is skipped
where no rank has been found. -/
theorem Covers.counted_testRankUnless {skip : Bool} (hcovers : Covers .live s)
    (hrank : ∀ A, s.settings.rankOf A ≤ A.width) (hs : skip = true → s.Counted s.countLive.1)
    (h : s.testRankUnless skip = .ok (b, s')) : s'.Counted s'.countLive.1 := by
  rw [(testRankUnless_eq_ok (fun _ _ => False) h).1.countLive_eq]
  cases skip with
  | true =>
    cases h
    exact hs rfl
  | false =>
    have hcount := counted_testRank hrank h
    rw [hcovers.columns, (s.length_select .live).1] at hcount
    exact hcount

/-- The main system has been counted, or it will not be tested at all. -/
theorem counted_mainSystem (hrank : ∀ A, s.settings.rankOf A ≤ A.width)
    (h : s.mainSystem policy options = .ok (some (b, t))) : t.Counted t.countLive.1 := by
  obtain ⟨s₁, s₂, halone, hlinearize, htest⟩ := passes_of_mainSystem h
  have hsettings : s₂.settings = s.settings := by
    have hframe := (s₁.eliminate.2.linearize_spec (fun _ _ => False) .live).1
    rw [hlinearize] at hframe
    exact hframe.settings.trans (sameUnknowns_reduced halone).settings
  have hcovers := covers_linearize (congrArg Prod.fst hlinearize)
  rw [hlinearize] at hcovers
  have hreset : Covers .live ({ s₂ with rank := none, dof := -1 } : EquationSystem α) :=
    ⟨hcovers.columns, hcovers.rows, hcovers.residualExprs⟩
  exact hreset.counted_testRankUnless (by rwa [← hsettings] at hrank)
    (fun _ => counted_of_none rfl rfl _) htest

end

/-! ## Reports -/

section
variable {independent : Bool} {constraints : List ConstraintHandle} {report : Report}

/-- A report of too many unknowns says nothing else. -/
theorem consistent_tooManyUnknowns (n : Nat) (constraints : List ConstraintHandle) :
    ({ result := .tooManyUnknowns } : Report).Consistent n constraints where
  dof_eq_neg_one_iff := iff_of_true rfl rfl
  dof_add_rank := nofun
  bad_of_okay := nofun
  result_of_timedOut := nofun
  of_tooManyUnknowns _ := ⟨rfl, rfl⟩
  nodup_bad := List.nodup_nil
  bad_subset := List.nil_subset _

omit [Scalar α] in
/-- A report with the rank that has been found is consistent, if nothing is blamed for a success and
no search is stopped where equations are independent. -/
theorem Counted.consistent (hs : s.Counted n) (hdof : report.dof = s.dof)
    (hrank : report.rank = s.rank)
    (hresult : report.result = .ofDiverged independent ∨
      report.result = .ofConverged independent ∧ (independent = true → report.bad = []))
    (htime : report.timedOut = true → independent = false) (hnodup : report.bad.Nodup)
    (hsubset : report.bad ⊆ constraints) : report.Consistent n constraints where
  dof_eq_neg_one_iff := by
    rw [hdof, hs.dof, hrank]
    cases hsome : s.rank with
    | none => exact iff_of_true rfl rfl
    | some rank =>
      have hle := hs.rank_le rank hsome
      simp only [degreesOfFreedom, reduceCtorEq, iff_false]
      omega
  dof_add_rank rank hsome := by
    rw [hrank] at hsome
    have hle := hs.rank_le rank hsome
    rw [hdof, hs.dof, hsome, degreesOfFreedom]
    omega
  bad_of_okay hokay := by
    rcases hresult with hresult | ⟨hresult, hbad⟩
    · cases independent <;> cases hresult.symm.trans hokay
    · cases independent with
      | true => exact hbad rfl
      | false => cases hresult.symm.trans hokay
  result_of_timedOut hstopped := by
    obtain rfl := htime hstopped
    exact hresult.symm.imp And.left id
  of_tooManyUnknowns hmany := by
    rcases hresult with hresult | ⟨hresult, _⟩
    · cases independent <;> cases hresult.symm.trans hmany
    · cases independent <;> cases hresult.symm.trans hmany
  nodup_bad := hnodup
  bad_subset := hsubset

/-! ## Constraints that are blamed -/

variable [Document δ α] {doc d d' : δ} {g : GroupHandle} {strict : Bool} {deadline : Deadline}

/-- These are the constraints of a document, and among them those of a group, whatever equations it
has written. -/
structure Lists (doc : δ) (g : GroupHandle) (constraints : List ConstraintHandle) : Prop where
  nodup : constraints.Nodup
  has : ∀ d, Relabelled g doc d → ∀ c, Document.hasConstraint d c = true → c ∈ constraints
  group : ∀ d, Relabelled g doc d → ((Document.constraints d g).map Prod.fst).Sublist constraints

/-- A search of a group finds constraints of the group, each once. -/
theorem Lists.findConflicts (hlists : Lists doc g constraints) (hd : Relabelled g doc d)
    {found : ConflictSearch}
    (h : s.findConflicts d g strict deadline = .ok (.ok found, d')) :
    found.bad.Nodup ∧ found.bad ⊆ constraints := by
  have hgroup := hlists.group d hd
  have hperm := perm_trialOrder (Document.constraints d g)
  obtain ⟨n, -, htries, -⟩ := tries_of_findConflicts h
  have hsub : found.bad.Sublist (trialOrder (Document.constraints d g)) :=
    htries.sublist.trans (begins_trialOrder _ n).sublist
  exact ⟨(hperm.nodup_iff.2 (hlists.nodup.sublist hgroup)).sublist hsub,
    fun c hc => hgroup.subset (hperm.subset (hsub.subset hc))⟩

/-- An iteration that fails is reported with the constraints that are to blame. -/
theorem Lists.divergence (hlists : Lists doc g constraints) (hd : Relabelled g doc d)
    (hs : s.Counted n) (independent : Bool) :
    (s.divergence d independent).Consistent n constraints :=
  hs.consistent rfl rfl (.inl rfl) nofun (nodup_blamed s d) fun c hc =>
    hlists.has d hd c (hasConstraint_of_mem_blamed hc)

end

/-! ## What follows acceptance -/

section
variable [Document δ α] {doc d : δ} {g : GroupHandle} {policy : Policy} {options : SolveOptions}
  {watch : Stopwatch} {out : Outcome δ α} {report report₀ : Report} {independent : Bool}
  {constraints : List ConstraintHandle}

/-- What is reported when all equations of the main system hold. -/
theorem Lists.finish (hlists : Lists doc g constraints) (hd : Relabelled g doc d)
    (hs : s.Counted s.countLive.1)
    (h : s.finish d g policy options watch independent = .ok out)
    (hresult : out.result = .ok report) :
    out.system.countLive.1 = s.countLive.1 ∧ report.Consistent s.countLive.1 constraints := by
  obtain ⟨s₁, d', found, hframe, hrecover, hsearch⟩ := finish_cases h hresult
  obtain ⟨s₂, hrecovered, hout⟩ := recoverAndWrite_cases hrecover
  -- The search has been made only if equations are redundant.
  obtain ⟨hd', hnodup, hsubset, htrue⟩ : Relabelled g doc d' ∧ found.bad.Nodup ∧
      found.bad ⊆ constraints ∧ (independent = true → found = {}) := by
    split at hsearch
    · next hredundant =>
      obtain ⟨rfl, hsearch⟩ := hsearch
      obtain ⟨hnodup, hsubset⟩ := hlists.findConflicts hd hsearch
      refine ⟨(relabelled_findConflicts hd hsearch).1, hnodup, hsubset, fun htrue => ?_⟩
      rw [hredundant.1] at htrue
      cases htrue
    · obtain ⟨rfl, rfl⟩ := hsearch
      exact ⟨hd, List.nodup_nil, List.nil_subset _, fun _ => rfl⟩
  have htime : found.timedOut = true → independent = false := by
    intro hstopped
    refine Bool.eq_false_iff.2 fun hindependent => ?_
    rw [htrue hindependent] at hstopped
    cases hstopped
  have hlive : s₂.countLive.1 = s.countLive.1 := hrecovered.countLive_eq.trans hframe.countLive_eq
  rcases hout with rfl | ⟨defining, rfl⟩
  · cases hresult
    exact ⟨hlive, hs.consistent rfl rfl
      (.inr ⟨rfl, fun hindependent => by rw [htrue hindependent]⟩) htime hnodup hsubset⟩
  · cases hresult
    refine ⟨hlive, hs.consistent rfl rfl (.inl rfl) htime (nodup_blame hnodup) fun c hc => ?_⟩
    rcases mem_blame.1 hc with hc | hwrote
    · exact hsubset hc
    · exact hlists.has d' hd' c hwrote.2

/-! ## Calls -/

/-- A solve reports consistently about the unknowns that are live in the end. If it has found a
rank, these are as many as there have been in the main system. -/
theorem Lists.solveLoaded (hlists : Lists doc g constraints) (hd : Relabelled g doc d)
    (hrank : ∀ A, s.settings.rankOf A ≤ A.width) (hnone : s.rank = none) (hdof : s.dof = -1)
    (h : s.solveLoaded d g policy options watch = .ok out) (hresult : out.result = .ok report) :
    report.Consistent out.system.countLive.1 constraints ∧ ∀ rank, report.rank = some rank →
      ∃ independent main, s.mainSystem policy options = .ok (some (independent, main)) ∧
        main.countLive.1 = out.system.countLive.1 := by
  cases solveLoaded_exit h with
  | @alone s₁ halone =>
    cases hresult
    have hsame := (s.sameRank_simplified policy options).trans (sameRank_solveSingletons halone)
    have hnone₁ : s₁.rank = none := hsame.rank.trans hnone
    refine ⟨hlists.divergence hd (counted_of_none hnone₁ (hsame.dof.trans hdof) _) true, ?_⟩
    intro rank hsome
    cases hnone₁.symm.trans hsome
  | tooMany _ _ =>
    cases hresult
    exact ⟨consistent_tooManyUnknowns _ _, nofun⟩
  | @diverged independent main s₁ hmain hnewton =>
    cases hresult
    have hlive := (frame_newton hnewton).1.countLive_eq
    have hcounted := (counted_mainSystem hrank hmain).sameRank (sameRank_newton hnewton)
    rw [← hlive] at hcounted
    exact ⟨hlists.divergence hd hcounted independent,
      fun _ _ => ⟨independent, main, hmain, hlive.symm⟩⟩
  | @converged independent main s₁ independent' s₂ _ hmain hnewton htest hfinish =>
    have hlive := (frame_newton hnewton).1.countLive_eq
    have hlive' := (testRankUnless_eq_ok (fun _ _ => False) htest).1.countLive_eq
    have hcounted := (counted_mainSystem hrank hmain).sameRank (sameRank_newton hnewton)
    rw [← hlive] at hcounted
    have hrank₁ : ∀ A, s₁.settings.rankOf A ≤ A.width := by
      rwa [(sameUnknowns_mainSystem hmain hnewton).settings]
    have hcounted₂ := (newton_mainSystem hmain hnewton).1.counted_testRankUnless hrank₁
      (fun _ => hcounted) htest
    obtain ⟨hend, hconsistent⟩ := hlists.finish hd hcounted₂ hfinish hresult
    rw [hend]
    exact ⟨hconsistent, fun _ _ => ⟨independent, main, hmain, (hlive'.trans hlive).symm⟩⟩

/-- A check reports consistently about all unknowns of the group. -/
theorem Lists.checkLoaded {findBad findFree : Bool} (hlists : Lists doc g constraints)
    (hd : Relabelled g doc d) (hrank : ∀ A, s.settings.rankOf A ≤ A.width)
    (h : s.checkLoaded d g policy findBad findFree watch = .ok out)
    (hresult : out.result = .ok report) : report.Consistent s.params.length constraints := by
  have hlive : s.clearTags.countLive.1 = s.params.length := by
    simp [countLive, clearTags, Function.comp_def]
  have hcounted : ∀ {b main}, s.Tested b main → main.Counted s.params.length := by
    rintro b main ⟨t, hlinearize, htest⟩
    have hcovers := covers_linearize (congrArg Prod.fst hlinearize)
    obtain ⟨hframe, _⟩ := s.clearTags.linearize_spec (fun _ _ => False) .live
    rw [hlinearize] at hcovers hframe
    have hcount := counted_testRank (hframe.settings ▸ hrank) htest
    rw [hcovers.columns, (t.length_select .live).1] at hcount
    rw [← hlive, ← hframe.countLive_eq]
    exact hcount
  cases checkLoaded_exit h with
  | tooMany _ =>
    cases hresult
    exact consistent_tooManyUnknowns _ _
  | independent htested _ =>
    cases hresult
    have hokay : SolveResult.okay = .ofConverged true := rfl
    exact (hcounted htested).consistent rfl rfl (.inr ⟨hokay, fun _ => rfl⟩)
      (fun hlate => absurd hlate Bool.false_ne_true) List.nodup_nil (List.nil_subset _)
  | refused _ _ => cases hresult
  | @redundant main d' found htested hsearch =>
    cases hresult
    obtain ⟨hnodup, hsubset⟩ : found.bad.Nodup ∧ found.bad ⊆ constraints := by
      split at hsearch
      · exact hlists.findConflicts hd hsearch
      · obtain ⟨rfl, _⟩ := hsearch
        exact ⟨List.nodup_nil, List.nil_subset _⟩
    have hredundant : SolveResult.redundantOkay = .ofConverged false := rfl
    exact (hcounted htested).consistent rfl rfl
      (.inr ⟨hredundant, fun hindependent => absurd hindependent Bool.false_ne_true⟩)
      (fun _ => rfl) hnodup hsubset

end

end

end EquationSystem

namespace Sketch

open EquationSystem (Lists)

section
variable [Scalar α]

/-- Writing equations adds no constraint to a sketch and removes none. -/
theorem lists_constraints {s : Sketch α} {g : GroupHandle} {group : Group}
    (hgroup : s.group? g = some group) (hnodup : (s.constraints.map (·.handle)).Nodup) :
    Lists s g (s.constraints.map (·.handle)) where
  nodup := hnodup
  has d hd c hc := by
    obtain ⟨constraints, rfl, hlooks⟩ := constraints_of_relabelled hgroup hd
    rw [← map_eq_of_forall₂ (fun _ _ hc => hc.eq.1) hlooks]
    obtain ⟨k, hk, heq⟩ := List.find?_isSome.1 hc
    exact List.mem_map.2 ⟨k, hk, beq_iff_eq.1 heq⟩
  group d hd := by
    obtain ⟨constraints, rfl, hlooks⟩ := constraints_of_relabelled hgroup hd
    rw [← map_eq_of_forall₂ (fun _ _ hc => hc.eq.1) hlooks]
    change ((constraints.filter _).map _ |>.map Prod.fst).Sublist _
    rw [List.map_map]
    exact List.filter_sublist.map _

/-- Reports do not contradict themselves. A solve and a check of a group come to one, for any sketch
whose constraints have different handles, and with any options. A solve reports on the unknowns that
are live in the end, which are those of the main system if it has found a rank, and a check reports
on all unknowns of the group. All that is asked of a rank is to be at most the number of columns,
which the numerical one is. -/
theorem solve_check_consistent :
    (∀ A : DenseMatrix α, (PivotedQR.factorize A).rank ≤ A.width) ∧
    ∀ (s : EquationSystem α) (doc : Sketch α) (g : GroupHandle) (group : Group),
      (∀ A, s.settings.rankOf A ≤ A.width) → (doc.constraints.map (·.handle)).Nodup →
      doc.group? g = some group →
      (∀ options watch, ∃ t d out report, s.load doc g none = .ok (group.policy, t, d) ∧
        s.solve doc g options watch = .ok out ∧ out.result = .ok report ∧
        report.Consistent out.system.countLive.1 (doc.constraints.map (·.handle)) ∧
        ∀ rank, report.rank = some rank → ∃ independent main,
          t.mainSystem group.policy options = .ok (some (independent, main)) ∧
            main.countLive.1 = out.system.countLive.1) ∧
      ∀ findBad findFree watch, ∃ out report, s.check doc g findBad findFree watch = .ok out ∧
        out.result = .ok report ∧
        report.Consistent (doc.params.filter (·.group == g)).length
          (doc.constraints.map (·.handle)) := by
  refine ⟨PivotedQR.rank_factorize_le, fun s doc g group hrank hnodup hgroup => ?_⟩
  have hpolicy := policy_eq_ok hgroup
  obtain ⟨t, d, hload⟩ := exists_load_eq_ok hpolicy s none
  have hloads := EquationSystem.loads_of_load hload
  have hlists := lists_constraints hgroup hnodup
  have hd : Relabelled g doc d := EquationSystem.relabelled_load .refl hload
  have hrank' : ∀ A, t.settings.rankOf A ≤ A.width := by rwa [hloads.settings]
  constructor
  · intro options watch
    obtain ⟨out, hout, _⟩ := s.yields_solve doc g options watch
    obtain ⟨report, hreport⟩ := exists_report_of_ends hpolicy (EquationSystem.ends_solve hout)
    have hrun : t.solveLoaded d g group.policy options watch = .ok out := by
      rw [← hout, EquationSystem.solve, hload]
    obtain ⟨hconsistent, hmain⟩ :=
      hlists.solveLoaded hd hrank' hloads.rank hloads.dof hrun hreport
    exact ⟨t, d, out, report, hload, hout, hreport, hconsistent, hmain⟩
  · intro findBad findFree watch
    obtain ⟨out, hout, _⟩ := s.yields_check doc g findBad findFree watch
    obtain ⟨report, hreport⟩ := exists_report_of_ends hpolicy (EquationSystem.ends_check hout)
    have hrun : t.checkLoaded d g group.policy findBad findFree watch = .ok out := by
      rw [← hout, EquationSystem.check, hload]
    have hconsistent := hlists.checkLoaded hd hrank' hrun hreport
    rw [hloads.params, List.length_map] at hconsistent
    change report.Consistent ((doc.params.filter (·.group == g)).map _).length _ at hconsistent
    rw [List.length_map] at hconsistent
    exact ⟨out, report, hout, hreport, hconsistent⟩

/-- Of three equations of four unknowns two are equal, and a check blames the two constraints that
have written them. A solve substitutes unknowns by equal ones, and reports on the two that are
left. -/
theorem solve_check_doubled : (∀ A, EquationSystem.rankSettings.rankOf A ≤ A.width) ∧
    (doubled.constraints.map (·.handle)).Nodup ∧ ∃ group out report checked report',
      doubled.group? ⟨1⟩ = some group ∧
      (EquationSystem.empty EquationSystem.rankSettings).solve doubled ⟨1⟩ {} .still = .ok out ∧
      out.result = .ok report ∧ out.system.countLive.1 = 2 ∧
      report.Consistent 2 [⟨1⟩, ⟨2⟩, ⟨3⟩] ∧
      report = { result := .okay, dof := 2, rank := some 0 } ∧
      (EquationSystem.empty EquationSystem.rankSettings).check doubled ⟨1⟩ true true .still =
        .ok checked ∧ checked.result = .ok report' ∧
      report'.Consistent 4 [⟨1⟩, ⟨2⟩, ⟨3⟩] ∧
      report' = { result := .redundantOkay, dof := 2, rank := some 2, bad := [⟨1⟩, ⟨2⟩] } := by
  have hrank : ∀ A, EquationSystem.rankSettings.rankOf A ≤ A.width := fun _ => rowRank_le _ _
  have hnodup : (doubled.constraints.map (·.handle)).Nodup := by decide +kernel
  have hsolve : ((EquationSystem.empty EquationSystem.rankSettings).solve doubled ⟨1⟩ {}
      .still).toOption.map (fun out => (out.system.countLive.1, out.result.toOption)) =
      some (2, some { result := .okay, dof := 2, rank := some 0 }) := by decide +kernel
  have hcheck : ((EquationSystem.empty EquationSystem.rankSettings).check doubled ⟨1⟩ true true
      .still).toOption.map (fun out => out.result.toOption) =
      some (some { result := .redundantOkay, dof := 2, rank := some 2, bad := [⟨1⟩, ⟨2⟩] }) := by
    decide +kernel
  obtain ⟨hsolves, hchecks⟩ := solve_check_consistent.2
    (EquationSystem.empty EquationSystem.rankSettings) doubled ⟨1⟩ _ hrank hnodup rfl
  obtain ⟨_, _, out, report, _, hout, hreport, hconsistent, _⟩ := hsolves {} .still
  obtain ⟨checked, report', hchecked, hreport', hconsistent'⟩ := hchecks true true .still
  rw [hout] at hsolve
  rw [hchecked] at hcheck
  simp only [Except.toOption, Option.map_some, hreport, hreport', Option.some.injEq,
    Prod.mk.injEq] at hsolve hcheck
  rw [hsolve.1] at hconsistent
  exact ⟨hrank, hnodup, _, out, report, checked, report', rfl, hout, hreport, hsolve.1, hconsistent,
    hsolve.2, hchecked, hreport', hconsistent', hcheck⟩

end

end Sketch

end SketchSolver
