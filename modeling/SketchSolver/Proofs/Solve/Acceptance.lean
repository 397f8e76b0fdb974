import SketchSolver.Solve.Basic
import SketchSolver.Proofs.Solve.Loading
import SketchSolver.Proofs.Solve.Preparation

/-!
# What the main iteration accepts

A solve passes through one point at which all residuals of the main system count as zero: where
Newton's iteration ends (`accepted`). Whatever a solve with values to write back does before that
point is done by the same passes (`Passed`), and what it does after it starts from there.

`Accepted` says how the system stands at that point: it is prepared, the residuals are those of the
live equations and have been judged, and no eliminated or substituted unknown has been touched.
-/

namespace SketchSolver.EquationSystem

section
variable [Scalar α]

/-- Tests the rank, unless that is to be skipped. -/
def testRankUnless (skip : Bool) (s : EquationSystem α) :
    Except (Fault α) (Bool × EquationSystem α) :=
  if skip then .ok (true, s) else s.testRank

/-- The system at the point where Newton's iteration has accepted its residuals, if the run gets
there. -/
def accepted (s : EquationSystem α) (policy : Policy) (options : SolveOptions) :
    Except (Fault α) (Option (EquationSystem α)) := do
  let s := s.clearTags
  let s :=
    if policy.suppressDof || policy.allowRedundant || !options.strict then s.substitute.2 else s
  let (alone, s) ← s.solveSingletons
  if !alone then return none
  let (written, s) := s.eliminate.2.linearize .live
  if !written then return none
  let s := { s with rank := none, dof := -1 }
  let (_, s) ← s.testRankUnless (policy.suppressDof || policy.allowRedundant)
  let (converged, s) ← s.newton
  return if converged then some s else none

/-- The names under which the passes know the parameters: substitution gives new ones, unless
redundancy is to be judged strictly. -/
def names (t : EquationSystem α) (policy : Policy) (options : SolveOptions) :
    ParamHandle → ParamHandle :=
  if policy.suppressDof || policy.allowRedundant || !options.strict then t.newName else id

omit [Scalar α] in
/-- The passes know the parameters under the new names or under the old ones. -/
theorem names_cases (t : EquationSystem α) (policy : Policy) (options : SolveOptions) :
    t.names policy options = t.newName ∨ t.names policy options = id := by
  unfold names
  split
  · exact Or.inl rfl
  · exact Or.inr rfl

/-- The system after substitution, unless redundancy is to be judged strictly. -/
def simplified (s : EquationSystem α) (policy : Policy) (options : SolveOptions) :
    EquationSystem α :=
  if policy.suppressDof || policy.allowRedundant || !options.strict then s.clearTags.substitute.2
  else s.clearTags

/-- The passes that have led from `t` to acceptance at `s'`, one system after each: substitution,
the equations solved alone, elimination with the linearization of what is left, and the
iteration. -/
structure Passed (f : ParamHandle → ParamHandle) (t s₁ s₂ s₃ s' : EquationSystem α) : Prop where
  substitutes : Substitutes f t s₁
  alone : s₁.solveSingletons = .ok (true, s₂)
  written : (s₂.eliminate.2.linearize .live).1 = true
  still : Frame (fun _ _ => False) s₂.eliminate.2 s₃
  sameForm : (s₂.eliminate.2.linearize .live).2.linearization.SameForm s₃.linearization
  iterated : Iterated (InState .live) s₃ true s'

/-- How a system stands that has come from `t` to the point of acceptance, under the names that `f`
gives to the parameters. -/
structure Accepted (f : ParamHandle → ParamHandle) (t s : EquationSystem α) : Prop where
  prepared : Prepared f t s
  residuals : s.linearization.residuals = (s.equations.filter (·.state == .live)).map fun q =>
    q.expr.fold.eval (.byHandle s.lookup.value)
  judged : s.settings.judge s.linearization.residuals = .converged
  reasonable : StaysReasonable t s
  untouched : List.Forall₂ (fun p₀ p : Param α => p.state = .eliminated ∨ p.state = .substituted →
    p.value = p₀.value) t.params s.params

variable {f : ParamHandle → ParamHandle} {s s' s₁ s₂ s₃ t : EquationSystem α} {policy : Policy}
  {options : SolveOptions}

/-- An unknown that is eliminated or substituted has the value it had. -/
theorem Accepted.exists_untouched (ha : Accepted f t s) {p : Param α} (hp : p ∈ s.params)
    (hstate : p.state = .eliminated ∨ p.state = .substituted) :
    ∃ p₀ ∈ t.params, p₀.handle = p.handle ∧ p₀.value = p.value := by
  obtain ⟨i, hi⟩ := List.getElem?_of_mem hp
  obtain ⟨p₀, hp₀, hvalue⟩ := forall₂_getElem?_of ha.untouched hi
  obtain ⟨p₀', hp₀', hrel⟩ := forall₂_getElem?_of ha.prepared.params hi
  rw [hp₀] at hp₀'
  cases hp₀'
  exact ⟨p₀, List.mem_of_getElem? hp₀, hrel.handle.symm, (hvalue hstate).symm⟩

omit [Scalar α] in
/-- Elements picked by position are those that a filter picks. -/
theorem filterMap_zipIdx_eq_map_filter (p : β → Bool) (g : β → γ) (l : List β) :
    (l.zipIdx.filterMap fun (x, i) => if p x then some i else none).filterMap
      (fun i => l[i]?.map g) = (l.filter p).map g := by
  have hpick : ∀ e ∈ l.zipIdx, ((if p e.1 then some e.2 else none).bind fun i => l[i]?.map g) =
      if p e.1 then some (g e.1) else none := by
    rintro ⟨x, i⟩ he
    rw [List.mem_zipIdx_iff_getElem?] at he
    simp only at he
    cases p x <;> simp [he]
  rw [List.filterMap_filterMap, List.filterMap_congr hpick]
  have hfst : l.zipIdx.filterMap (fun e => if p e.1 then some (g e.1) else none) =
      (l.zipIdx.map Prod.fst).filterMap fun x => if p x then some (g x) else none := by
    rw [List.filterMap_map]
    rfl
  rw [hfst, List.zipIdx_map_fst, ← List.filterMap_eq_map, ← List.filterMap_eq_filter,
    List.filterMap_filterMap]
  refine List.filterMap_congr fun x _ => ?_
  cases hp : p x <;> simp [Option.guard, hp]

/-- Testing the rank moves nothing, and changes no residual, if it is done at all. -/
theorem testRankUnless_eq_ok (moved : ParamState → Nat → Prop) {skip b : Bool}
    (h : s.testRankUnless skip = .ok (b, s')) :
    Frame moved s s' ∧ s.linearization.SameForm s'.linearization ∧
      s'.linearization.residuals = s.linearization.residuals := by
  unfold testRankUnless at h
  split at h
  · cases h
    exact ⟨.refl moved s, ⟨rfl, rfl, rfl, rfl⟩, rfl⟩
  · exact testRank_eq_ok moved h

/-- A run that is accepted has come through all passes. -/
theorem passed_of_accepted (hd : s.HandlesDistinct)
    (h : s.accepted policy options = .ok (some s')) :
    ∃ s₂ s₃, Passed (s.clearTags.names policy options) s.clearTags
      (s.simplified policy options) s₂ s₃ s' := by
  unfold accepted at h
  have hfresh := fresh_clearTags s
  have hsub : Substitutes (s.clearTags.names policy options) s.clearTags
      (s.simplified policy options) := by
    unfold names simplified
    split
    · exact substitutes_substitute hd.clearTags fun p hp => (hfresh.params p hp).1
    · exact .refl fun p hp => (hfresh.params p hp).1
  simp only at h
  change (s.simplified policy options).solveSingletons >>= _ = _ at h
  generalize s.simplified policy options = s₁ at h hsub ⊢
  obtain ⟨⟨alone, s₂⟩, halone, h⟩ := bind_eq_ok.1 h
  cases alone with
  | false => cases h
  | true =>
  refine ⟨s₂, ?_⟩
  simp only [Bool.not_true, Bool.false_eq_true, if_false] at h
  obtain ⟨hframe₄, hlinearized⟩ := s₂.eliminate.2.linearize_spec (fun _ _ => False) .live
  cases hwritten : (s₂.eliminate.2.linearize .live).1 with
  | false =>
    simp only [hwritten] at h
    cases h
  | true =>
  obtain ⟨hcolumns, _⟩ := hlinearized hwritten
  simp only [hwritten, Bool.not_true, Bool.false_eq_true, if_false] at h
  obtain ⟨⟨independent, s₅⟩, hrank, h⟩ := bind_eq_ok.1 h
  obtain ⟨hframe₅, hform₅, _⟩ := testRankUnless_eq_ok (fun _ _ => False) hrank
  obtain ⟨⟨converged, s₆⟩, hnewton, h⟩ := bind_eq_ok.1 h
  cases converged with
  | false => cases h
  | true =>
  obtain rfl : s₆ = s' := Option.some.inj (Except.ok.inj h)
  have hreset : Frame (fun _ _ => False) (s₂.eliminate.2.linearize .live).2
      { (s₂.eliminate.2.linearize .live).2 with rank := none, dof := -1 } :=
    .of_eq rfl rfl rfl rfl rfl rfl
  have hstill : Frame (fun _ _ => False) s₂.eliminate.2 s₅ :=
    (hframe₄.trans hreset).trans hframe₅
  have hcolumns₅ : ColumnsMove (InState .live) s₅ :=
    columnsMove_of_select hstill (hform₅.columns.trans hcolumns) fun p hsel => by
      simpa [InState, Selection.hasParam] using hsel
  exact ⟨s₅, ⟨hsub, halone, hwritten, hstill, hform₅, iterated_newton hcolumns₅ hnewton⟩⟩

/-- If redundancy is judged strictly, there is nothing that substitution has done. -/
theorem accepted_passes (hd : s.HandlesDistinct) (h : s.accepted policy options = .ok (some s')) :
    ∃ s₁ s₂ s₃, Passed (s.clearTags.names policy options) s.clearTags s₁ s₂ s₃ s' ∧
      ((policy.suppressDof || policy.allowRedundant || !options.strict) = false →
        s₁ = s.clearTags) := by
  obtain ⟨s₂, s₃, hpassed⟩ := passed_of_accepted hd h
  exact ⟨_, s₂, s₃, hpassed, fun hskip => if_neg (by simp [hskip])⟩

/-- Since elimination, live unknowns have been moved and nothing else. -/
theorem Passed.frame (h : Passed f t s₁ s₂ s₃ s') : Frame (InState .live) s₂.eliminate.2 s' :=
  (h.still.mono fun _ _ hm => hm.elim).trans h.iterated.frame

/-- The main iteration starts from a prepared system, and what it accepts holds. -/
theorem Passed.accepted (h : Passed f t s₁ s₂ s₃ s') (hd : t.HandlesDistinct) (ht : t.Fresh) :
    Accepted f t s' := by
  obtain ⟨hprepared, hreason, huntouched⟩ := prepared_eliminate hd ht h.substitutes h.alone
  have hd₃ : s₂.eliminate.2.HandlesDistinct := hd.congr hprepared.handles_eq
  obtain ⟨_, _, hexprs⟩ :=
    (s₂.eliminate.2.linearize_spec (fun _ _ => False) .live).2 h.written
  have hall := h.frame
  have hiter := h.iterated
  have hexprs₃ : s₃.linearization.residualExprs =
      (s₂.eliminate.2.equations.filter (·.state == .live)).map fun q =>
        s₂.eliminate.2.slotForm q.expr := by
    rw [h.sameForm.residualExprs]
    exact hexprs.trans (filterMap_zipIdx_eq_map_filter _ _ _)
  refine ⟨hprepared.frame hd₃ hall (fun n hm => ParamState.noConfusion hm), ?_, ?_, ?_, ?_⟩
  · rw [hiter.residuals rfl, hexprs₃, List.map_map, hall.equations]
    refine List.map_congr_left fun q _ => ?_
    rw [Function.comp_apply, ← hall.slotForm_eq, eval_slotForm]
  · rw [hiter.frame.settings, hiter.judged rfl]
  · have hstay : StaysReasonable s₂.eliminate.2 s' :=
      (StaysReasonable.of_frame h.still).trans h.still.settings (hiter.reasonable rfl)
    exact hreason.trans hprepared.settings hstay
  · refine forall₂_of_getElem? (huntouched.length_eq.trans hall.length_eq.symm)
      fun i p₀ p hp₀ hp hstate => ?_
    obtain ⟨p₃, hp₃, heq⟩ := forall₂_getElem? huntouched hp₀
    obtain ⟨p₃', hp₃', hk⟩ := hall.kept_of hp
    rw [hp₃] at hp₃'
    cases hp₃'
    rw [hk.state] at hstate
    have hstill : ¬ InState .live p₃.state p₃.stage := by
      rcases hstate with hstate | hstate <;> simp [InState, hstate]
    rw [hk.value hstill, heq hstate]

/-- A run that is accepted stands as it should, under some names. -/
theorem accepted_eq_ok (hd : s.HandlesDistinct) (h : s.accepted policy options = .ok (some s')) :
    ∃ f, Accepted f s.clearTags s' := by
  obtain ⟨s₂, s₃, hpassed⟩ := passed_of_accepted hd h
  exact ⟨_, hpassed.accepted hd.clearTags (fresh_clearTags s)⟩

end

end SketchSolver.EquationSystem
