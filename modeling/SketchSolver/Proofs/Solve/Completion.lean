import SketchSolver.Proofs.EquationSystem.Recovery
import SketchSolver.Proofs.Solve.Acceptance

/-!
# What comes after acceptance

A solve that ends with values to write back goes on from the accepted point to recover eliminated
and substituted unknowns (`solveLoaded_eq_ok`, `finish_eq_ok`). Values are copied twice, since a
substituted unknown can occur in no equation that is left, while its root can be recovered from one.

`Completed` says what that has done: only eliminated and substituted unknowns have moved, each
eliminated one solves its equation, and each substituted one has the value of its root. So the
residuals are those that were accepted (`Completed.residuals`), and an equation has one value under
the names it was written in and those it was given (`Completed.value_name`).
-/

namespace SketchSolver

/-- A result without redundancy has values to write back. -/
theorem SolveResult.isOkay_of_eq_okay {r : SolveResult} (h : r = .okay) : r.isOkay = true := by
  rw [h]
  rfl

namespace EquationSystem

/-- An unknown that is recovered after the main system has been solved. -/
def Deferred (state : ParamState) (_ : Nat) : Prop :=
  state = .eliminated ∨ state = .substituted

section
variable [Scalar α]

/-- How a system stands that has come from `t` through the accepted point `s` to the end `s'`. -/
structure Completed (t s s' : EquationSystem α) : Prop where
  frame : Frame Deferred s s'
  recovered : ∀ e ∈ s'.elimination.flatten, ∀ q, s'.equations[e.2]? = some q →
    SolvedFor s'.settings s'.lookup.value (t.lookup.value e.1) q.expr e.1
  copied : ∀ p ∈ s'.params, p.state = .substituted → ∀ r ∈ s'.params, p.root = some r.handle →
    r.state ≠ .substituted → p.value = r.value
  reasonable : List.Forall₂ (fun p₀ p : Param α => p.state ≠ .substituted →
    p.value = p₀.value ∨ s'.settings.isUnreasonable p.value = false) t.params s'.params

variable {f : ParamHandle → ParamHandle} {s s' s'' t : EquationSystem α}

/-- Copying, recovering and copying again completes what has been accepted. -/
theorem Accepted.completed (ha : Accepted f t s) (hd : t.HandlesDistinct)
    (hstill : Frame (fun _ _ => False) s s')
    (hrecover : s'.copySubstituted.recover = .ok (.ok (), s'')) :
    Completed t s s''.copySubstituted := by
  have hd₀ : s.HandlesDistinct := hd.congr ha.prepared.handles_eq
  have hdeferred : ∀ st n, InState .substituted st n → Deferred st n := fun _ _ => Or.inr
  have hframe₁ : Frame (InState .substituted) s s'.copySubstituted :=
    (hstill.mono fun _ _ hm => hm.elim).trans s'.frame_copySubstituted
  generalize s'.copySubstituted = s₁ at hrecover hframe₁
  have hd₁ : s₁.HandlesDistinct := hframe₁.handlesDistinct hd₀
  obtain ⟨hframe₂, hreason, hsolved⟩ :=
    recover_spec hd₁ (ha.prepared.replayable.frame hframe₁) hrecover
  have hd₂ : s''.HandlesDistinct := hframe₂.handlesDistinct hd₁
  have hprepared₂ : Prepared f t s'' :=
    ha.prepared.frame hd₀ ((hframe₁.mono hdeferred).trans (hframe₂.mono fun _ _ => Or.inl))
      fun n hm => by rcases hm with hm | hm <;> cases hm
  have hframe₃ := s''.frame_copySubstituted
  have hcopied := hd₂.value_copySubstituted
  generalize s''.copySubstituted = s₃ at hframe₃ hcopied
  have hall : Frame Deferred s s₃ :=
    ((hframe₁.mono hdeferred).trans (hframe₂.mono fun _ _ => Or.inl)).trans
      (hframe₃.mono hdeferred)
  refine ⟨hall, fun e he q hq => ?_, hcopied, ?_⟩
  · rw [hframe₃.elimination, hframe₂.elimination] at he
    rw [hframe₃.equations, hframe₂.equations] at hq
    have hlast := hsolved e he q hq
    have hold : s₁.lookup.value e.1 = t.lookup.value e.1 := by
      rw [hframe₁.elimination] at he
      obtain ⟨p, hp, hph, hstate⟩ :=
        (ha.prepared.replayable.mem_iff e.1).1 (List.mem_map_of_mem he)
      obtain ⟨p₀, hp₀, hp₀h, hp₀v⟩ := ha.exists_untouched hp (Or.inl hstate)
      have hkeep : s₁.lookup.value e.1 = s.lookup.value e.1 := by
        refine hframe₁.value_eq_of_forall fun p' hp' hh hm => ?_
        rw [hd₀.param_eq hp' hp (hh.trans hph.symm)] at hm
        exact absurd (hstate.symm.trans hm) (by decide)
      rw [hkeep, ← hph, hd₀.value_eq hp, ← hp₀v, ← hp₀h, hd.value_eq hp₀]
    have hq₂ : q ∈ s''.equations := by
      rw [hframe₂.equations]
      exact List.mem_of_getElem? hq
    rw [hold] at hlast
    rw [hframe₃.settings, hframe₂.settings]
    refine hlast.congr fun k hk => (hframe₃.value_eq_of_forall fun p hp hh hm => ?_).symm
    exact hprepared₂.state_ne_substituted hd₂ hq₂ hp (hh ▸ hk) hm
  · refine forall₂_of_getElem? (ha.reasonable.length_eq.trans hall.length_eq.symm)
      fun i p₀ p₃ hp₀ hp₃ hstate => ?_
    obtain ⟨p₂, hp₂, hk₃⟩ := hframe₃.kept_of hp₃
    obtain ⟨p₁, hp₁, hr₂⟩ := forall₂_getElem?_of hreason hp₂
    obtain ⟨p₁', hp₁', hk₂⟩ := hframe₂.kept_of hp₂
    rw [hp₁] at hp₁'
    cases hp₁'
    obtain ⟨p, hp, hk₁⟩ := hframe₁.kept_of hp₁
    obtain ⟨p₀', hp₀', hr⟩ := forall₂_getElem?_of ha.reasonable hp
    rw [hp₀] at hp₀'
    cases hp₀'
    have hstate₂ : p₂.state ≠ .substituted := fun hm => hstate (hk₃.state.trans hm)
    have hstate₁ : p.state ≠ .substituted := fun hm =>
      hstate₂ (hk₂.state.trans (hk₁.state.trans hm))
    rw [hk₃.value hstate₂, hall.settings, ha.prepared.settings]
    rw [hframe₁.settings, ha.prepared.settings] at hr₂
    rcases hr₂ with heq | hreason₂
    · rw [heq, hk₁.value hstate₁]
      exact hr
    · exact Or.inr hreason₂

/-! ## In the end -/

/-- What has been prepared is so in the end. -/
theorem Completed.prepared (hc : Completed t s s') (ha : Accepted f t s) (hd : s.HandlesDistinct) :
    Prepared f t s' :=
  ha.prepared.frame hd hc.frame fun n hm => by rcases hm with hm | hm <;> cases hm

/-- A parameter has the value of the one that it is named by. -/
theorem Completed.value_name (hc : Completed t s s') (ha : Accepted f t s)
    (hd : s.HandlesDistinct) (x : ParamHandle) : s'.lookup.value (f x) = s'.lookup.value x := by
  have hprepared := hc.prepared ha hd
  have hd' := hc.frame.handlesDistinct hd
  cases hunknown : s'.isUnknown x with
  | false => rw [hprepared.other x hunknown]
  | true =>
    obtain ⟨p, hp, rfl⟩ := isUnknown_iff.1 hunknown
    obtain ⟨r, hr, hname, hstate⟩ := hprepared.named p hp
    obtain ⟨p₀, _, hrel⟩ := forall₂_mem_of hprepared.params hp
    rcases hrel.settled with ⟨hsame, _⟩ | ⟨hsubst, hroot⟩
    · rw [hrel.handle, hsame]
    · rw [← hname, hd'.value_eq hr, hd'.value_eq hp]
      refine (hc.copied p hp hsubst r hr ?_ hstate).symm
      rw [hroot, hname, hrel.handle]

/-- The residuals that were accepted are those at the values of the end, since no live equation
refers to an unknown that has been recovered. -/
theorem Completed.residuals (hc : Completed t s s') (ha : Accepted f t s)
    (hd : s.HandlesDistinct) : s.linearization.residuals =
      (s.equations.filter (·.state == .live)).map fun q =>
        q.expr.fold.eval (.byHandle s'.lookup.value) := by
  rw [ha.residuals]
  refine List.map_congr_left fun q hq => Expr.eval_byHandle_congr fun k hk => ?_
  obtain ⟨hmem, hlive⟩ := List.mem_filter.1 hq
  refine (hc.frame.value_eq_of_forall fun p hp hh hm => ?_).symm
  have hnot := ha.prepared.not_dependsOn hd hmem (Or.inl (beq_iff_eq.1 hlive)) hp hm
  rw [hh, Expr.dependsOn_of_fold hk] at hnot
  cases hnot

/-! ## Runs that succeed -/

variable [Document δ α] {doc : δ} {g : GroupHandle} {policy : Policy}
  {options : SolveOptions} {watch : Stopwatch} {out : Outcome δ α} {report₀ report : Report}
  {independent : Bool}

/-- A run makes two tests of the rank, each unless it is to be skipped. -/
theorem solveLoaded_eq (s : EquationSystem α) :
    s.solveLoaded doc g policy options watch = (do
      let s := s.clearTags
      let s :=
        if policy.suppressDof || policy.allowRedundant || !options.strict then s.substitute.2
        else s
      let (alone, s) ← s.solveSingletons
      if !alone then return s.conclude doc g (s.divergence doc true) []
      let (written, s) := s.eliminate.2.linearize .live
      if !written then return s.conclude doc g { result := .tooManyUnknowns } []
      let s := { s with rank := none, dof := -1 }
      let (independent, s) ← s.testRankUnless (policy.suppressDof || policy.allowRedundant)
      let (converged, s) ← s.newton
      if !converged then return s.conclude doc g (s.divergence doc independent) []
      let (independent, s) ← s.testRankUnless policy.suppressDof
      s.finish doc g policy options watch independent) := by
  unfold solveLoaded testRankUnless
  cases policy.suppressDof <;> cases policy.allowRedundant <;> rfl

/-- A run that succeeds has been accepted, and has gone on from there. -/
theorem solveLoaded_eq_ok (h : s.solveLoaded doc g policy options watch = .ok out)
    (hresult : out.result = .ok report) (hok : report.result.isOkay = true) :
    ∃ s₁ independent s₂, s.accepted policy options = .ok (some s₁) ∧
      s₁.testRankUnless policy.suppressDof = .ok (independent, s₂) ∧
      s₂.finish doc g policy options watch independent = .ok out := by
  rw [solveLoaded_eq] at h
  unfold accepted
  simp only at h ⊢
  generalize (if (policy.suppressDof || policy.allowRedundant || !options.strict) = true then
    s.clearTags.substitute.2 else s.clearTags) = s₀ at h ⊢
  obtain ⟨⟨alone, s₁⟩, halone, h⟩ := bind_eq_ok.1 h
  cases alone with
  | false =>
    cases h
    cases hresult
    cases hok
  | true =>
  simp only [Bool.not_true, Bool.false_eq_true, if_false] at h
  cases hlinearized : s₁.eliminate.2.linearize .live with
  | mk written s₂ =>
  rw [hlinearized] at h
  cases written with
  | false =>
    cases h
    cases hresult
    cases hok
  | true =>
  obtain ⟨⟨independent, s₃⟩, hrank, h⟩ := bind_eq_ok.1 h
  obtain ⟨⟨converged, s₄⟩, hnewton, h⟩ := bind_eq_ok.1 h
  cases converged with
  | false =>
    cases h
    cases hresult
    cases independent <;> cases hok
  | true =>
  obtain ⟨⟨independent', s₅⟩, hrank', h⟩ := bind_eq_ok.1 h
  refine ⟨s₄, independent', s₅, bind_eq_ok.2 ⟨_, halone, ?_⟩, hrank', h⟩
  simp only [Bool.not_true, Bool.false_eq_true, if_false, hlinearized]
  exact bind_eq_ok.2 ⟨_, hrank, bind_eq_ok.2 ⟨_, hnewton, rfl⟩⟩

/-- A run that succeeds has recovered all unknowns and writes them back. -/
theorem recoverAndWrite_eq_ok (h : s.recoverAndWrite doc g report₀ independent = .ok out)
    (hresult : out.result = .ok report) (hok : report.result.isOkay = true) :
    ∃ s₁, s.copySubstituted.recover = .ok (.ok (), s₁) ∧ out.system = s₁.copySubstituted ∧
      out.writes = s₁.copySubstituted.writes := by
  unfold recoverAndWrite at h
  obtain ⟨⟨recovered, s₁⟩, hrecover, h⟩ := bind_eq_ok.1 h
  cases recovered with
  | error defining =>
    cases h
    cases hresult
    cases independent <;> cases hok
  | ok _ =>
    cases h
    exact ⟨s₁, hrecover, rfl, rfl⟩

/-- Marks are set or conflicts looked for before the unknowns are recovered, which moves nothing.
The report says what the last test of the rank has found, and which conflicts. -/
theorem finish_cases (h : s.finish doc g policy options watch independent = .ok out)
    (hresult : out.result = .ok report) :
    ∃ s₁ doc' found, Frame (fun _ _ => False) s s₁ ∧
      s₁.recoverAndWrite doc' g
        { result := .ofConverged independent
          dof := s.dof
          rank := s.rank
          bad := found.bad
          timedOut := found.timedOut } independent = .ok out ∧
      if independent = false ∧ options.findBad = true then
        s₁ = s ∧ s.findConflicts doc g options.strict (watch policy.searchTimeoutMs) =
          .ok (.ok found, doc')
      else found = {} ∧ doc' = doc := by
  unfold finish at h
  cases independent with
  | true =>
    obtain ⟨s₁, hmark, h⟩ := bind_eq_ok.1 h
    exact ⟨s₁, doc, {}, frame_markFree hmark, h, rfl, rfl⟩
  | false =>
    simp only [Bool.false_eq_true, if_false] at h
    split at h
    · next hfind =>
      obtain ⟨⟨search, doc'⟩, hsearch, h⟩ := bind_eq_ok.1 h
      cases search with
      | error e =>
        cases h
        cases hresult
      | ok found =>
        refine ⟨s, doc', found, .refl _ s, h, ?_⟩
        rw [if_pos ⟨rfl, hfind⟩]
        exact ⟨rfl, hsearch⟩
    · next hfind =>
      refine ⟨s, doc, {}, .refl _ s, h, ?_⟩
      rw [if_neg fun hboth => hfind hboth.2]
      exact ⟨rfl, rfl⟩

/-- A run that succeeds recovers the unknowns as they were left when marks were set. -/
theorem finish_eq_ok (h : s.finish doc g policy options watch independent = .ok out)
    (hresult : out.result = .ok report) (hok : report.result.isOkay = true) :
    ∃ s₁ s₂, Frame (fun _ _ => False) s s₁ ∧ s₁.copySubstituted.recover = .ok (.ok (), s₂) ∧
      out.system = s₂.copySubstituted ∧ out.writes = s₂.copySubstituted.writes := by
  obtain ⟨s₁, _, _, hframe, hrecover, _⟩ := finish_cases h hresult
  obtain ⟨s₂, hrest⟩ := recoverAndWrite_eq_ok hrecover hresult hok
  exact ⟨s₁, s₂, hframe, hrest⟩

end

end EquationSystem

end SketchSolver
