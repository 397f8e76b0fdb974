import SketchSolver.Proofs.Arithmetic.Numbers
import SketchSolver.Proofs.Sketch.Tables
import SketchSolver.Proofs.Solve.Residuals
import SketchSolver.Proofs.Solve.Trials

/-!
# Reference dimensions

The label of a reference dimension only displays a measure. Sketches that differ in such labels of a
group (`Relabels`) give the same answers to a call on it, and whatever the call does to both leaves
them so (`bisimulation_relabels`); hence two calls find the same, and no trial of a search for
conflicts shows in another one (`findConflicts_bad`). As soon as the equations have been written, a
label is what is measured, so the labels that are left to differ are those of what cannot be
measured (`relabels_measureReferences`).

A solve that succeeds measures once more, so the equation that a reference dimension would write
says that a length is equal to itself (`eval_measured`).
-/

namespace SketchSolver

/-- What has a label can be given another one. -/
theorem ConstraintKind.label?_withLabel {kind : ConstraintKind α} (h : kind.label?.isSome = true)
    (x : α) : (kind.withLabel x).label? = some x := by
  cases kind with
  | pointDistance | diameter => rfl
  | pointsCoincident | horizontal | vertical | lock | pointOnCircle | equalLength => cases h

namespace Constraint

variable {P P' : ConstraintKind α → Prop} {g : GroupHandle} {policy : Policy}
  {c c' : Constraint α}

/-- Two constraints are the same, but for the label if it is that of a reference dimension of the
group, of a kind that `P` allows. -/
def Relabels (P : ConstraintKind α → Prop) (g : GroupHandle) (policy : Policy)
    (c c' : Constraint α) : Prop :=
  c' = c ∨ c.group = g ∧ c.isReference policy = true ∧ P c.kind ∧ ∃ x, c' = c.withLabel x

/-- Labels may differ where more of them are allowed to. -/
theorem Relabels.mono (h : c.Relabels P g policy c')
    (hP : ∀ kind : ConstraintKind α, kind.label?.isSome = true → P kind → P' kind) :
    c.Relabels P' g policy c' :=
  h.imp id fun ⟨hg, href, hkind, hlabel⟩ =>
    ⟨hg, href, hP _ (Bool.and_eq_true_iff.1 href).1 hkind, hlabel⟩

/-- Constraints that differ in such a label look the same. -/
theorem Relabels.looksSame (h : c.Relabels P g policy c') : c.LooksSame g policy c' :=
  h.imp id fun ⟨hg, href, _, hlabel⟩ => ⟨hg, href, hlabel⟩

end Constraint

namespace EquationSystem

variable [Field K] [LinearOrder K] [PartialFunctions K] [Document δ (Exact K)]

/-- A solve that succeeds writes back numbers, if it has found numbers: an unknown has been judged,
has not been touched, or has the value of its root. -/
theorem isNumber_writes {s : EquationSystem (Exact K)} {doc : δ} {g : GroupHandle}
    {options : SolveOptions} {watch : Stopwatch} {out : Outcome δ (Exact K)} {report : Report}
    (hd : ((Document.params doc g).map Prod.fst).Nodup)
    (hnumbers : ∀ e ∈ Document.params doc g, Exact.IsNumber e.2)
    (h : s.solve doc g options watch = .ok out) (hresult : out.result = .ok report)
    (hok : report.result.isOkay = true) : ∀ w ∈ out.writes, Exact.IsNumber w.value := by
  obtain ⟨policy, t, doc', f, s₁, hload, hd₁, _, ha, hcompleted, _, hwrites⟩ :=
    solve_eq_ok hd h hresult hok
  have hloaded : ∀ p ∈ t.clearTags.params, ∃ x, p.value = .number x := by
    intro p hp
    obtain ⟨p₀, hp₀, rfl⟩ := List.mem_map.1 hp
    rw [(loads_of_load hload).params] at hp₀
    obtain ⟨e, he, rfl⟩ := List.mem_map.1 hp₀
    exact hnumbers e he
  have hd' : out.system.HandlesDistinct := hcompleted.frame.handlesDistinct hd₁
  rw [hwrites]
  intro w hw
  obtain ⟨p, hp, rfl⟩ := List.mem_map.1 hw
  obtain ⟨r, hr, hname, hstate⟩ := (hcompleted.prepared ha hd₁).named p hp
  have hvalue : p.value = r.value := by
    have hcopied := hcompleted.value_name ha hd₁ p.handle
    rw [← hname, hd'.value_eq hr, hd'.value_eq hp] at hcopied
    exact hcopied.symm
  change Exact.IsNumber p.value
  rw [hvalue]
  exact hcompleted.exists_number hloaded hr hstate

end EquationSystem

namespace Sketch

/-- Two sketches are the same, but for such labels. -/
def Relabels (P : ConstraintKind α → Prop) (g : GroupHandle) (policy : Policy)
    (s s' : Sketch α) : Prop :=
  ∃ constraints, s' = { s with constraints } ∧
    List.Forall₂ (Constraint.Relabels P g policy) s.constraints constraints

variable {P P' : ConstraintKind α → Prop} {g : GroupHandle} {policy : Policy} {s s' : Sketch α}
  {c c' : Constraint α}

/-! ## Labels -/

/-- Labels of a sketch may differ where more of them are allowed to. -/
theorem Relabels.mono (h : s.Relabels P g policy s')
    (hP : ∀ kind : ConstraintKind α, kind.label?.isSome = true → P kind → P' kind) :
    s.Relabels P' g policy s' := by
  obtain ⟨constraints, rfl, hconstraints⟩ := h
  exact ⟨constraints, rfl, hconstraints.imp fun _ _ hc => hc.mono hP⟩

section
variable [Scalar α]

/-- Sketches that differ in such labels look the same. -/
theorem Relabels.looksSame (h : s.Relabels P g policy s') : LooksSame g policy s s' := by
  obtain ⟨constraints, rfl, hconstraints⟩ := h
  exact
    { settings := rfl
      hasPolicy := rfl
      entities := rfl
      constraints := hconstraints.imp fun _ _ hc => hc.looksSame
      handles := rfl
      own := fun _ => rfl
      other := fun _ _ => rfl }

/-- What is measured is a matter of the entities and the parameters. -/
theorem measure?_congr (hentities : s'.entities = s.entities) (hparams : s'.params = s.params) :
    s'.measure? = s.measure? := by
  funext kind
  have hparam : s'.param? = s.param? := by
    funext h
    simp only [param?, hparams]
  unfold measure? lookup
  rw [circle?_congr hentities, segmentLength?_congr hentities, hparam]

/-- What a constraint is remeasured to is a matter of the entities and the parameters. -/
theorem remeasured_congr (hentities : s'.entities = s.entities) (hparams : s'.params = s.params) :
    s'.remeasured = s.remeasured := by
  funext c
  unfold remeasured
  rw [measure?_congr hentities hparams]

/-- What is measured does not depend on the label. -/
@[simp] theorem measure?_withLabel (s : Sketch α) (x : α) (kind : ConstraintKind α) :
    s.measure? (kind.withLabel x) = s.measure? kind := by
  cases kind <;> rfl

/-- A constraint is given its measure as label, or is left as it is if it has none. -/
theorem remeasured_cases (s : Sketch α) (c : Constraint α) :
    s.measure? c.kind = none ∧ s.remeasured c = c ∨
      ∃ x, s.measure? c.kind = some x ∧ s.remeasured c = c.withLabel x := by
  unfold remeasured
  cases s.measure? c.kind with
  | none => exact .inl ⟨rfl, rfl⟩
  | some x => exact .inr ⟨x, rfl, rfl⟩

/-- After a measure, two labels are the same unless there is nothing to measure. -/
theorem relabels_remeasured (hg : c.group = g) (href : c.isReference policy = true)
    (h : c.Relabels P g policy c') :
    (s.remeasured c).Relabels (fun kind => P kind ∧ s.measure? kind = none) g policy
      (s.remeasured c') := by
  rcases h with rfl | ⟨_, _, hkind, x, rfl⟩
  · exact .inl rfl
  · have hsame : s.measure? (c.withLabel x).kind = s.measure? c.kind :=
      s.measure?_withLabel x c.kind
    unfold remeasured
    rw [hsame]
    cases hmeasure : s.measure? c.kind with
    | some y => exact .inl (c.withLabel_withLabel x y)
    | none => exact .inr ⟨hg, href, ⟨hkind, hmeasure⟩, x, rfl⟩

/-- Where reference dimensions are measured, only what cannot be measured is left to differ, and
what has been excepted. -/
theorem relabels_measureReferences (h : s.Relabels P g policy s')
    (except : Option ConstraintHandle) :
    (s.measureReferences g policy except).Relabels
      (fun kind => P kind ∧ (except = none → s.measure? kind = none)) g policy
      (s'.measureReferences g policy except) := by
  obtain ⟨constraints, rfl, hconstraints⟩ := h
  refine ⟨_, rfl, ?_⟩
  simp only [measureReferences, List.forall₂_map_left_iff, List.forall₂_map_right_iff]
  refine hconstraints.imp fun c c' hc => ?_
  obtain ⟨hhandle, hgroup, href, _⟩ := hc.looksSame.eq
  have hasked : isAsked g except c' = isAsked g except c := by
    simp only [isAsked, hhandle, hgroup]
  have hremeasured : remeasured { s with constraints } = s.remeasured := remeasured_congr rfl rfl
  rw [hasked, href, hremeasured]
  split
  · next hmeasured =>
    obtain ⟨hgroup, href⟩ := Bool.and_eq_true_iff.1 hmeasured
    have hg : c.group = g := beq_iff_eq.1 (Bool.and_eq_true_iff.1 hgroup).1
    exact (relabels_remeasured hg href hc).mono fun _ _ hkind => ⟨hkind.1, fun _ => hkind.2⟩
  · next hnot =>
    rcases hc with rfl | ⟨hg, href, hP, hlabel⟩
    · exact .inl rfl
    · refine .inr ⟨hg, href, ⟨hP, ?_⟩, hlabel⟩
      rintro rfl
      exact absurd (by simp [isAsked, hg, href]) hnot

/-! ## Calls -/

/-- Recording a status changes no policy. -/
theorem policy_recordStatus (hs : Document.policy s g = .ok policy) (status : Status) :
    Document.policy (Document.recordStatus s g status) g = .ok policy := by
  obtain ⟨group, hgroup, rfl⟩ := Option.map_eq_some_iff.1 (policy_eq_ok_iff.1 hs)
  refine policy_eq_ok_iff.2 ?_
  rw [group?_recordStatus hgroup]
  rfl

/-- A call on the group does not see labels of its reference dimensions. -/
theorem bisimulation_relabels (P : ConstraintKind α → Prop) (g : GroupHandle) (policy : Policy) :
    Bisimulation g fun s s' : Sketch α =>
      Document.policy s g = .ok policy ∧ s.Relabels P g policy s' where
  policy := by
    rintro s _ ⟨_, constraints, rfl, _⟩
    rfl
  equations := by
    rintro s s' ⟨hs, h⟩ except out
    rw [writeEquations_append hs, writeEquations_append (h.looksSame.policy_eq hs),
      h.looksSame.groupEquations_eq]
  written := by
    rintro s s' ⟨hs, h⟩ except out
    rw [writeEquations_append hs, writeEquations_append (h.looksSame.policy_eq hs)]
    exact ⟨hs, (relabels_measureReferences h except).mono fun _ _ => And.left⟩
  constraints := fun ⟨_, h⟩ => h.looksSame.constraints_eq
  hasConstraint := by
    rintro s _ ⟨_, constraints, rfl, h⟩ c
    have hhandles : constraints.map (·.handle) = s.constraints.map (·.handle) :=
      map_eq_of_forall₂ (fun _ _ hc => hc.looksSame.eq.1) h
    change (constraints.find? (·.handle == c)).isSome =
      (s.constraints.find? (·.handle == c)).isSome
    rw [Bool.eq_iff_iff, List.find?_isSome, List.find?_isSome]
    simpa using congrArg (c ∈ ·) hhandles
  params := by
    rintro s _ ⟨_, constraints, rfl, _⟩
    rfl
  paramValue? := by
    rintro s _ ⟨_, constraints, rfl, _⟩ x
    rfl
  dragged := by
    rintro s _ ⟨_, constraints, rfl, _⟩
    rfl
  writeBack := by
    rintro s _ ⟨hs, constraints, rfl, h⟩ x value free
    exact ⟨hs, constraints, rfl, h⟩
  recordStatus := by
    rintro s _ ⟨hs, constraints, rfl, h⟩ status
    exact ⟨policy_recordStatus hs status, constraints, rfl, h⟩

/-- A sketch that has written equations differs in labels of reference dimensions only. -/
theorem relabels_of_relabelled {d : Sketch α} (hs : Document.policy s g = .ok policy)
    (h : Relabelled g s d) : s.Relabels (fun _ => True) g policy d := by
  suffices hd : (∃ constraints, d = { s with constraints }) ∧ LooksSame g policy s d by
    obtain ⟨⟨constraints, rfl⟩, hlooks⟩ := hd
    exact ⟨constraints, rfl, hlooks.constraints.imp fun _ _ hc =>
      hc.imp id fun ⟨hg, href, hlabel⟩ => ⟨hg, href, trivial, hlabel⟩⟩
  induction h with
  | refl => exact ⟨⟨s.constraints, rfl⟩, .refl g policy s⟩
  | @write d except out _ ih =>
    obtain ⟨⟨constraints, rfl⟩, hlooks⟩ := ih
    rw [writeEquations_append (hlooks.policy_eq hs)]
    exact ⟨⟨_, rfl⟩, hlooks.trans (looksSame_measureReferences _ except)⟩

/-- A search measures labels on the way, and no verdict depends on that: however early it is
stopped, it has found those of the constraints tried that can be removed from the sketch as it
was. -/
theorem findConflicts_bad {main : EquationSystem α} {strict : Bool} {deadline : Deadline}
    (hs : Document.policy s g = .ok policy) :
    ∃ tried found s', main.findConflicts s g strict deadline = .ok (.ok found, s') ∧
      tried <+: EquationSystem.trialOrder (Document.constraints s g) ∧
      (found.timedOut = false →
        tried = EquationSystem.trialOrder (Document.constraints s g)) ∧
      found.bad = tried.filter (main.removable s g strict) := by
  have hkept : ∀ d, Relabelled g s d →
      Document.policy s g = .ok policy ∧ s.Relabels (fun _ => True) g policy d :=
    fun d hd => ⟨hs, relabels_of_relabelled hs hd⟩
  obtain ⟨found, s', hfind⟩ := EquationSystem.exists_findConflicts_eq_ok
    (fun d hd => ⟨policy, (hkept d hd).2.looksSame.policy_eq hs⟩) main strict deadline
  obtain ⟨n, -, htries, -, hall⟩ := EquationSystem.tries_of_findConflicts hfind
  exact ⟨_, found, s', hfind, EquationSystem.begins_trialOrder _ n, hall,
    htries.bad_eq (bisimulation_relabels _ g policy) hkept .refl⟩

/-- From two sketches that differ in labels the same is loaded, and what cannot be measured is left
to differ. -/
theorem load_relabels (hs : Document.policy s g = .ok policy)
    (h : s.Relabels (fun _ => True) g policy s') :
    ∃ t d d', (EquationSystem.empty s.settings).load s g none = .ok (policy, t, d) ∧
      (EquationSystem.empty s'.settings).load s' g none = .ok (policy, t, d') ∧
      Document.policy d g = .ok policy ∧
      d.Relabels (fun kind => s.measure? kind = none) g policy d' := by
  obtain ⟨t, d, hload⟩ := exists_load_eq_ok hs (.empty s.settings) none
  have hsettings : s'.settings = s.settings := h.looksSame.settings
  rcases EquationSystem.load_related (bisimulation_relabels _ g policy) ⟨hs, h⟩
    (.empty s.settings) none with ⟨e, he, _⟩ | ⟨policy₁, t₁, d₁, d', hload₁, hload', _⟩
  · cases hload.symm.trans he
  · obtain ⟨rfl, rfl, rfl⟩ : policy = policy₁ ∧ t = t₁ ∧ d = d₁ := by
      simpa using hload.symm.trans hload₁
    have hd : d = s.measureReferences g policy none := by
      rw [(EquationSystem.loads_of_load hload).document, writeEquations_append hs]
    have hd' : d' = s'.measureReferences g policy none := by
      rw [(EquationSystem.loads_of_load hload').document,
        writeEquations_append (h.looksSame.policy_eq hs)]
    rw [hsettings]
    refine ⟨t, d, d', hload, hload', ?_, ?_⟩
    · rw [hd]
      exact hs
    · rw [hd, hd']
      exact (relabels_measureReferences h none).mono fun _ _ hkind => hkind.2 rfl

/-- To measure a group again is to measure its reference dimensions under its policy. -/
theorem remeasure_eq (hs : Document.policy s g = .ok policy) :
    s.remeasure g = s.measureReferences g policy none := by
  obtain ⟨group, hgroup, rfl⟩ := Option.map_eq_some_iff.1 (policy_eq_ok_iff.1 hs)
  unfold remeasure
  rw [hgroup]

/-- Measuring again leaves two sketches the same, but for the labels they differed in. -/
theorem relabels_remeasure (hs : Document.policy s g = .ok policy)
    (h : s.Relabels P g policy s') :
    (s.remeasure g).Relabels P g policy (s'.remeasure g) := by
  rw [remeasure_eq hs, remeasure_eq (h.looksSame.policy_eq hs)]
  exact (relabels_measureReferences h none).mono fun _ _ => And.left

/-- A solve measures once more if it has succeeded. -/
theorem solveGroup_of_solve {options : SolveOptions} {watch : Stopwatch}
    {out : Outcome (Sketch α) α} {report : Report}
    (hout : (EquationSystem.empty s.settings).solve s g options watch = .ok out)
    (hresult : out.result = .ok report) :
    s.solveGroup g options watch = .ok (.ok report,
      if report.result.isOkay then out.document.remeasure g else out.document) := by
  unfold solveGroup
  simp only [hout, hresult, bind, Except.bind]
  split <;> rfl

/-- Two solves of sketches that differ in labels find the same. -/
theorem solveGroup_relabels (hs : Document.policy s g = .ok policy)
    (h : s.Relabels (fun _ => True) g policy s') (options : SolveOptions)
    (watch watch' : Stopwatch) :
    ∃ report t report' t', s.solveGroup g options watch = .ok (.ok report, t) ∧
      s'.solveGroup g options watch' = .ok (.ok report', t') ∧
      (report.timedOut = false → report'.timedOut = false →
        report' = report ∧ t.Relabels (fun kind => s.measure? kind = none) g policy t') := by
  obtain ⟨out, hout, _⟩ := (EquationSystem.empty s.settings).yields_solve s g options watch
  obtain ⟨out', hout', _⟩ := (EquationSystem.empty s'.settings).yields_solve s' g options watch'
  obtain ⟨report, hreport⟩ := exists_report_of_ends hs (EquationSystem.ends_solve hout)
  obtain ⟨report', hreport'⟩ :=
    exists_report_of_ends (h.looksSame.policy_eq hs) (EquationSystem.ends_solve hout')
  refine ⟨report, _, report', _, solveGroup_of_solve hout hreport,
    solveGroup_of_solve hout' hreport', fun htime htime' => ?_⟩
  obtain ⟨t, d, d', hload, hload', hd, hrelabels⟩ := load_relabels hs h
  unfold EquationSystem.solve at hout hout'
  rw [hload] at hout
  rw [hload'] at hout'
  have hagree := EquationSystem.coupled_solveLoaded (bisimulation_relabels _ g policy)
    ⟨hd, hrelabels⟩ out out' hout hout'
  obtain ⟨rfl, hdocument⟩ := hagree.report hreport hreport' htime htime'
  refine ⟨rfl, ?_⟩
  split
  · exact relabels_remeasure hdocument.1 hdocument.2
  · exact hdocument.2

/-- Two checks of sketches that differ in labels find the same. -/
theorem checkGroup_relabels (hs : Document.policy s g = .ok policy)
    (h : s.Relabels (fun _ => True) g policy s') (findFree : Bool) (watch watch' : Stopwatch) :
    ∃ report t report' t', s.checkGroup g findFree watch = .ok (.ok report, t) ∧
      s'.checkGroup g findFree watch' = .ok (.ok report', t') ∧
      (report.timedOut = false → report'.timedOut = false →
        report' = report ∧ t.Relabels (fun kind => s.measure? kind = none) g policy t') := by
  obtain ⟨out, hout, _⟩ := (EquationSystem.empty s.settings).yields_check s g true findFree watch
  obtain ⟨out', hout', _⟩ :=
    (EquationSystem.empty s'.settings).yields_check s' g true findFree watch'
  obtain ⟨report, hreport⟩ := exists_report_of_ends hs (EquationSystem.ends_check hout)
  obtain ⟨report', hreport'⟩ :=
    exists_report_of_ends (h.looksSame.policy_eq hs) (EquationSystem.ends_check hout')
  have hcheck : s.checkGroup g findFree watch = .ok (.ok report, out.document) := by
    simp only [checkGroup, hout, hreport, bind, Except.bind, pure, Except.pure]
  have hcheck' : s'.checkGroup g findFree watch' = .ok (.ok report', out'.document) := by
    simp only [checkGroup, hout', hreport', bind, Except.bind, pure, Except.pure]
  refine ⟨report, _, report', _, hcheck, hcheck', fun htime htime' => ?_⟩
  obtain ⟨t, d, d', hload, hload', hd, hrelabels⟩ := load_relabels hs h
  unfold EquationSystem.check at hout hout'
  rw [hload] at hout
  rw [hload'] at hout'
  have hagree := EquationSystem.coupled_checkLoaded (bisimulation_relabels _ g policy)
    ⟨hd, hrelabels⟩ out out' hout hout'
  exact (hagree.report hreport hreport' htime htime').imp_right And.right

/-! ## What a label displays -/

omit [Scalar α] in
/-- What an entity of a consistent sketch is made of is there. -/
theorem WellFormed.exists_param? (hs : s.WellFormed) {e : EntityHandle} {entity : Entity}
    (he : s.entity? e = some entity) {h : ParamHandle} (hh : h ∈ entity.kind.ownParams) :
    ∃ p ∈ s.params, s.param? h = some p := by
  obtain ⟨p, hp, hkey⟩ := List.mem_map.1 (hs.owned entity (List.mem_of_find?_eq_some he) h hh)
  obtain rfl : p.handle = h := (Prod.mk.inj hkey).1
  exact ⟨p, hp, param?_of_mem hs.nodup_handles hp⟩

/-- The coordinates of a point of a consistent sketch are values of its parameters. -/
theorem WellFormed.exists_coordinates (hs : s.WellFormed) {e : EntityHandle} {a : PointExpr α}
    (ha : s.point? e = some a) :
    ∃ p ∈ s.params, ∃ q ∈ s.params, a.x.eval s.lookup = p.value ∧ a.y.eval s.lookup = q.value := by
  unfold point? at ha
  split at ha
  · next handle group x y hentity =>
    cases ha
    obtain ⟨p, hp, hx⟩ := hs.exists_param? hentity (List.mem_cons_self ..)
    obtain ⟨q, hq, hy⟩ := hs.exists_param? hentity
      (List.mem_cons_of_mem x (List.mem_singleton_self y))
    refine ⟨p, hp, q, hq, ?_, ?_⟩
    · simp [Expr.eval, lookup, Lookup.byHandle, hx]
    · simp [Expr.eval, lookup, Lookup.byHandle, hy]
  · cases ha

omit [Scalar α] in
/-- The radius of a circle of a consistent sketch is one of its parameters. -/
theorem WellFormed.exists_radius (hs : s.WellFormed) {e : EntityHandle} {center : PointExpr α}
    {radius : ParamHandle} (h : s.circle? e = some (center, radius)) :
    ∃ p ∈ s.params, s.param? radius = some p := by
  unfold circle? at h
  split at h
  · next handle group center' radius' hentity =>
    obtain ⟨_, _, heq⟩ := Option.map_eq_some_iff.1 h
    obtain ⟨_, rfl⟩ := Prod.mk.inj heq
    exact hs.exists_param? hentity (List.mem_singleton_self _)
  · cases h

/-- A solve keeps a sketch consistent, whatever it answers. -/
theorem WellFormed.of_solveGroup {t : Sketch α} {options : SolveOptions} {watch : Stopwatch}
    {answer : Except SolverError Report} (hs : s.WellFormed)
    (h : s.solveGroup g options watch = .ok (answer, t)) : t.WellFormed := by
  obtain ⟨_, _, _, hrun, hanswered⟩ := exists_solveGroup hs.nodup_handles g options watch
  obtain ⟨_, rfl⟩ := Prod.mk.inj (Except.ok.inj (hrun.symm.trans h))
  exact hs.answered hanswered

/-- A label of this kind cannot be measured. In a consistent sketch this means that an entity is
missing; in another one a circle may be without its radius. -/
def LacksEntities (s : Sketch α) (kind : ConstraintKind α) : Prop :=
  s.measure? kind = none ∧ (s.WellFormed → s.constraintEquations? kind = none)

/-- What has a label and equations is measured, if the sketch is consistent. -/
theorem constraintEquations?_eq_none (hs : s.WellFormed) {kind : ConstraintKind α}
    (hlabel : kind.label?.isSome = true) (h : s.measure? kind = none) :
    s.constraintEquations? kind = none := by
  cases kind with
  | pointDistance a b distance =>
    have hlength : s.segmentLength? (a, b) = none := Option.map_eq_none_iff.1 h
    simp [constraintEquations?, hlength]
  | diameter circle diameter =>
    cases hcircle : s.circle? circle with
    | none => simp [constraintEquations?, hcircle]
    | some found =>
      obtain ⟨center, radius⟩ := found
      obtain ⟨p, _, hp⟩ := hs.exists_radius hcircle
      simp [measure?, hcircle, hp] at h
  | pointsCoincident | horizontal | vertical | lock | pointOnCircle | equalLength => cases hlabel

/-- The equation of a labelled constraint says that what is measured is the label. -/
theorem eval_measured {kind : ConstraintKind α} {es : List (Expr α)} {x y : α}
    (hlabel : kind.label? = some y) (hes : s.constraintEquations? kind = some es)
    (hmeasure : s.measure? kind = some x) : ∀ e ∈ es, e.eval s.lookup = x - y := by
  cases kind with
  | pointDistance a b distance =>
    obtain ⟨length, hlength, hes⟩ := Option.bind_eq_some_iff.1 hes
    obtain ⟨length', hlength', rfl⟩ := Option.map_eq_some_iff.1 hmeasure
    obtain rfl : length = length' := Option.some.inj (hlength.symm.trans hlength')
    cases hlabel
    cases hes
    intro e he
    rw [List.mem_singleton.1 he]
    rfl
  | diameter circle diameter =>
    obtain ⟨found, hcircle, hequations⟩ := Option.bind_eq_some_iff.1 hes
    obtain ⟨found', hcircle', hradius⟩ := Option.bind_eq_some_iff.1 hmeasure
    obtain rfl : found = found' := Option.some.inj (hcircle.symm.trans hcircle')
    obtain ⟨p, hp, hvalue⟩ := Option.bind_eq_some_iff.1 hradius
    obtain rfl := Option.some.inj hlabel
    obtain rfl := Option.some.inj hequations
    obtain rfl := Option.some.inj hvalue
    intro e he
    rw [List.mem_singleton.1 he]
    have hlookup : s.lookup.value found.2 = p.value := by simp [lookup, Lookup.byHandle, hp]
    rw [← hlookup]
    rfl
  | pointsCoincident | horizontal | vertical | lock | pointOnCircle | equalLength => cases hlabel

/-- What has just been measured shows its measure, if it has one. -/
theorem measure?_of_measureReferences (hc : c ∈ (s.measureReferences g policy none).constraints)
    (hg : c.group = g) (href : c.isReference policy = true) (hsome : s.measure? c.kind ≠ none) :
    s.measure? c.kind = c.kind.label? := by
  obtain ⟨c₀, _, rfl⟩ := List.mem_map.1 hc
  by_cases hasked : (isAsked g none c₀ && c₀.isReference policy) = true
  · rw [if_pos hasked] at hg href hsome ⊢
    obtain ⟨hmeasure, hsame⟩ | ⟨x, hmeasure, hlabelled⟩ := s.remeasured_cases c₀
    · rw [hsame] at hsome
      exact absurd hmeasure hsome
    · rw [hlabelled] at href ⊢
      rw [Constraint.isReference_withLabel] at href
      have hkind : (c₀.withLabel x).kind = c₀.kind.withLabel x := rfl
      rw [hkind, measure?_withLabel, hmeasure]
      exact (ConstraintKind.label?_withLabel (Bool.and_eq_true_iff.1 href).1 x).symm
  · rw [if_neg hasked] at hg href
    exact absurd (by simp [isAsked, hg, href]) hasked

/-- After a solve that succeeds, a reference dimension whose entities exist shows its measure. -/
theorem measure?_of_solveGroup {t : Sketch α} {options : SolveOptions} {watch : Stopwatch}
    {report : Report} (hs : s.WellFormed) (hpolicy : Document.policy s g = .ok policy)
    (h : s.solveGroup g options watch = .ok (.ok report, t)) (hok : report.result.isOkay = true)
    (hc : c ∈ t.constraints) (hg : c.group = g) (href : c.isReference policy = true)
    (hentities : t.constraintEquations? c.kind ≠ none) : t.measure? c.kind = c.kind.label? := by
  obtain ⟨out, t', hout, hrun, hanswered⟩ := exists_solveGroup hs.nodup_handles g options watch
  obtain ⟨hresult, rfl⟩ := Prod.mk.inj (Except.ok.inj (hrun.symm.trans h))
  have hwell : t'.WellFormed := hs.answered hanswered
  have hsome : t'.measure? c.kind ≠ none := fun hnone =>
    hentities (constraintEquations?_eq_none hwell (Bool.and_eq_true_iff.1 href).1 hnone)
  rw [hresult] at hanswered
  obtain ⟨group, hgroup, hgroup', _⟩ := hanswered
  obtain ⟨_, hgroup₀, rfl⟩ := Option.map_eq_some_iff.1 (policy_eq_ok_iff.1 hpolicy)
  obtain rfl := Option.some.inj (hgroup.symm.trans hgroup₀)
  -- Measuring has been the last that was done.
  obtain ⟨out', _, _, rfl⟩ := solveGroup_eq_ok h hok
  have hgroups : (out'.document.remeasure g).group? g = out'.document.group? g := by
    unfold remeasure
    split <;> rfl
  have hdocument : Document.policy out'.document g = .ok group.policy := by
    rw [policy_eq_ok_iff, ← hgroups, hgroup']
    rfl
  rw [remeasure_eq hdocument] at hc hsome ⊢
  have hmeasure : (out'.document.measureReferences g group.policy none).measure? =
      out'.document.measure? := measure?_congr rfl rfl
  rw [hmeasure] at hsome ⊢
  exact measure?_of_measureReferences hc hg href hsome

end

section
variable [Field K] [LinearOrder K] [IsStrictOrderedRing K] [PartialFunctions K] [LawfulRoot K]
  {t : Sketch (Exact K)}

/-- A length is a number, if the coordinates are. -/
theorem isNumber_distance [TotalRoot K] {source : Lookup (Exact K)} {a b : PointExpr (Exact K)}
    (hax : Exact.IsNumber (a.x.eval source)) (hay : Exact.IsNumber (a.y.eval source))
    (hbx : Exact.IsNumber (b.x.eval source)) (hby : Exact.IsNumber (b.y.eval source)) :
    Exact.IsNumber ((a.distance b).eval source) := by
  obtain ⟨x, hx⟩ := Exact.isNumber_sub.2 ⟨hax, hbx⟩
  obtain ⟨y, hy⟩ := Exact.isNumber_sub.2 ⟨hay, hby⟩
  obtain ⟨z, hz⟩ := TotalRoot.exists_sqrt (K := K)
    (add_nonneg (mul_self_nonneg x) (mul_self_nonneg y))
  refine ⟨z, Exact.sqrt_eq_number.2 ⟨x * x + y * y, ?_, LawfulRoot.sqrt_eq_some.1 hz⟩⟩
  exact Exact.add_eq_number.2 ⟨_, _, Exact.mul_eq_number.2 ⟨x, x, hx, hx, rfl⟩,
    Exact.mul_eq_number.2 ⟨y, y, hy, hy, rfl⟩, rfl⟩

/-- A consistent sketch of numbers has numbers for its measures. -/
theorem isNumber_measure [TotalRoot K] (ht : t.WellFormed)
    (hnumbers : ∀ p ∈ t.params, Exact.IsNumber p.value) {kind : ConstraintKind (Exact K)}
    {x : Exact K} (h : t.measure? kind = some x) : Exact.IsNumber x := by
  cases kind with
  | pointDistance a b distance =>
    obtain ⟨length, hlength, rfl⟩ := Option.map_eq_some_iff.1 h
    obtain ⟨a', ha, hlength⟩ := Option.bind_eq_some_iff.1 hlength
    obtain ⟨b', hb, hlength⟩ := Option.bind_eq_some_iff.1 hlength
    cases hlength
    obtain ⟨p, hp, q, hq, hx, hy⟩ := ht.exists_coordinates ha
    obtain ⟨p', hp', q', hq', hx', hy'⟩ := ht.exists_coordinates hb
    exact isNumber_distance (hx ▸ hnumbers p hp) (hy ▸ hnumbers q hq) (hx' ▸ hnumbers p' hp')
      (hy' ▸ hnumbers q' hq')
  | diameter circle diameter =>
    obtain ⟨_, _, hradius⟩ := Option.bind_eq_some_iff.1 h
    obtain ⟨p, hp, hvalue⟩ := Option.bind_eq_some_iff.1 hradius
    obtain rfl := Option.some.inj hvalue
    exact Exact.isNumber_mul.2 ⟨Exact.isNumber_natCast 2,
      hnumbers p (List.mem_of_find?_eq_some hp)⟩
  | pointsCoincident | horizontal | vertical | lock | pointOnCircle | equalLength => cases h

omit [IsStrictOrderedRing K] [LawfulRoot K] in
/-- A solve that succeeds leaves numbers, if it has found numbers. -/
theorem isNumber_of_solveGroup {s : Sketch (Exact K)} {options : SolveOptions} {watch : Stopwatch}
    {report : Report} (hs : (s.params.map (·.handle)).Nodup)
    (hnumbers : ∀ p ∈ s.params, Exact.IsNumber p.value)
    (h : s.solveGroup g options watch = .ok (.ok report, t)) (hok : report.result.isOkay = true) :
    ∀ p ∈ t.params, Exact.IsNumber p.value := by
  obtain ⟨out, t', hout, hrun, hanswered⟩ := exists_solveGroup hs g options watch
  obtain ⟨hresult, rfl⟩ := Prod.mk.inj (Except.ok.inj (hrun.symm.trans h))
  rw [hresult] at hanswered
  obtain ⟨_, _, _, _, hparams⟩ := hanswered
  rw [if_pos hok] at hparams
  have hwritten := EquationSystem.isNumber_writes (nodup_params hs) (fun e he => by
    obtain ⟨p, hp, rfl⟩ := List.mem_map.1 he
    exact hnumbers p (List.mem_filter.1 hp).1) hout hresult hok
  intro p' hp'
  obtain ⟨p, hp, hover⟩ := forall₂_mem_of hparams.2 hp'
  unfold SketchParam.Overwritten at hover
  split at hover
  · obtain ⟨w, hw, rfl⟩ := hover
    have hmem : w ∈ out.writes.filter (·.handle == p.handle) := by
      rw [hw]
      exact List.mem_singleton_self w
    exact hwritten w (List.mem_filter.1 hmem).1
  · rw [hover]
    exact hnumbers p hp

end

/-! ## Both -/

/-- Reference dimensions have no influence on a call. Two sketches that differ in nothing but labels
of reference dimensions of a group get the same report of a solve and of a check, if neither search
is stopped, and are left the same but for labels that cannot be measured, since an entity is
missing. In exact arithmetic, after a solve that succeeds the equation that a reference dimension
would write holds. -/
theorem solveGroup_checkGroup_relabels {α : Type} [Scalar α] {K : Type} [Field K] [LinearOrder K]
    [IsStrictOrderedRing K] [PartialFunctions K] [LawfulRoot K] :
    (∀ (s s' : Sketch α) (g : GroupHandle) (group : Group), s.group? g = some group →
      s.Relabels (fun _ => True) g group.policy s' →
      (∀ options watch watch', ∃ report t report' t',
        s.solveGroup g options watch = .ok (.ok report, t) ∧
        s'.solveGroup g options watch' = .ok (.ok report', t') ∧
        (report.timedOut = false → report'.timedOut = false →
          report' = report ∧ t.Relabels s.LacksEntities g group.policy t')) ∧
      ∀ findFree watch watch', ∃ report t report' t',
        s.checkGroup g findFree watch = .ok (.ok report, t) ∧
        s'.checkGroup g findFree watch' = .ok (.ok report', t') ∧
        (report.timedOut = false → report'.timedOut = false →
          report' = report ∧ t.Relabels s.LacksEntities g group.policy t')) ∧
    ∀ (s t : Sketch (Exact K)) (g : GroupHandle) (group : Group) options watch report,
      s.WellFormed → (∀ p ∈ s.params, Exact.IsNumber p.value) → s.group? g = some group →
      s.solveGroup g options watch = .ok (.ok report, t) → report.result.isOkay = true →
      ∀ c ∈ t.constraints, c.group = g → c.isReference group.policy = true →
        ∀ es, t.constraintEquations? c.kind = some es → ∀ e ∈ es,
          (TotalRoot K ∨ e.eval t.lookup ≠ .undefined) → e.eval t.lookup = .number 0 := by
  refine ⟨fun s s' g group hgroup h => ?_, ?_⟩
  · have hs := policy_eq_ok hgroup
    have hlacks : ∀ kind : ConstraintKind α, kind.label?.isSome = true → s.measure? kind = none →
        s.LacksEntities kind := fun _ hlabel hnone =>
      ⟨hnone, fun hwell => constraintEquations?_eq_none hwell hlabel hnone⟩
    constructor
    · intro options watch watch'
      obtain ⟨report, t, report', t', hrun, hrun', hsame⟩ :=
        solveGroup_relabels hs h options watch watch'
      exact ⟨report, t, report', t', hrun, hrun', fun htime htime' =>
        (hsame htime htime').imp_right fun hlabels => hlabels.mono hlacks⟩
    · intro findFree watch watch'
      obtain ⟨report, t, report', t', hrun, hrun', hsame⟩ :=
        checkGroup_relabels hs h findFree watch watch'
      exact ⟨report, t, report', t', hrun, hrun', fun htime htime' =>
        (hsame htime htime').imp_right fun hlabels => hlabels.mono hlacks⟩
  · intro s t g group options watch report hwell hnumbers hgroup h hok c hc hg href es hes e he hdef
    have hs := policy_eq_ok hgroup
    obtain ⟨x, hlabel⟩ := Option.isSome_iff_exists.1 (Bool.and_eq_true_iff.1 href).1
    have hmeasure : t.measure? c.kind = some x := by
      rw [← hlabel]
      exact measure?_of_solveGroup hwell hs h hok hc hg href (by simp [hes])
    have heval : e.eval t.lookup = x - x := eval_measured hlabel hes hmeasure e he
    have hnumber : Exact.IsNumber x := by
      rcases hdef with _ | hdef
      · exact isNumber_measure (hwell.of_solveGroup h)
          (isNumber_of_solveGroup hwell.nodup_handles hnumbers h hok) hmeasure
      · by_contra hnot
        rw [heval, Exact.eq_undefined hnot] at hdef
        exact hdef rfl
    obtain ⟨y, rfl⟩ := hnumber
    rw [heval, Exact.number_sub, sub_self]

section

/-- The distance has been measured wrongly. -/
def mismeasured : Sketch (Exact ℚ) :=
  measured.setLabel ⟨2⟩ (.number 7)

/-- The wrong measure makes no difference, and the solve corrects it. -/
theorem solveGroup_mismeasured : ∃ group, measured.group? ⟨1⟩ = some group ∧
    measured.Relabels (fun _ => True) ⟨1⟩ group.policy mismeasured ∧
    (∃ report t t', measured.solveGroup ⟨1⟩ {} .still = .ok (.ok report, t) ∧
      mismeasured.solveGroup ⟨1⟩ {} .still = .ok (.ok report, t') ∧
      t.Relabels measured.LacksEntities ⟨1⟩ group.policy t' ∧ report.result = .okay ∧
      t.constraints.map (·.kind.label?) = [none, some (.number 4)] ∧
      ∀ c ∈ t.constraints, c.group = ⟨1⟩ → c.isReference group.policy = true →
        ∀ es, t.constraintEquations? c.kind = some es → ∀ e ∈ es,
          e.eval t.lookup ≠ .undefined → e.eval t.lookup = .number 0) ∧
    ∃ report t t', measured.checkGroup ⟨1⟩ true .still = .ok (.ok report, t) ∧
      mismeasured.checkGroup ⟨1⟩ true .still = .ok (.ok report, t') ∧
      t.Relabels measured.LacksEntities ⟨1⟩ group.policy t' := by
  have hrelabels : measured.Relabels (fun _ => True) ⟨1⟩ {} mismeasured :=
    ⟨mismeasured.constraints, rfl,
      .cons (.inl rfl) (.cons (.inr ⟨rfl, rfl, trivial, .number 7, rfl⟩) .nil)⟩
  have hwell : measured.WellFormed :=
    { nodup := by rintro (_ | _) <;> decide +kernel
      lt_next := by rintro (_ | _) <;> decide +kernel
      owned := by decide +kernel
      apart := by decide +kernel
      dragged := by decide +kernel }
  have hnumbers : ∀ p ∈ measured.params, Exact.IsNumber p.value := by
    intro p hp
    fin_cases hp <;> exact ⟨_, rfl⟩
  have hsolves : [measured, mismeasured].map (fun s => (s.solveGroup ⟨1⟩ {} .still).toOption.map
      fun out => (out.1.toOption.map fun report => (report.result, report.timedOut),
        out.2.constraints.map (·.kind.label?))) =
      [some (some (.okay, false), [none, some (.number 4)]),
        some (some (.okay, false), [none, some (.number 4)])] := by decide +kernel
  have hchecks : [measured, mismeasured].map (fun s => (s.checkGroup ⟨1⟩ true .still).toOption.map
      fun out => out.1.toOption.map (·.timedOut)) =
      [some (some false), some (some false)] := by decide +kernel
  obtain ⟨hsame, hholds⟩ := solveGroup_checkGroup_relabels (α := Exact ℚ) (K := ℚ)
  obtain ⟨hsolve, hcheck⟩ := hsame measured mismeasured ⟨1⟩ _ rfl hrelabels
  refine ⟨_, rfl, hrelabels, ?_, ?_⟩
  · obtain ⟨report, t, report', t', hrun, hrun', hsame⟩ := hsolve {} .still .still
    rw [List.map_cons, List.map_cons, hrun, hrun'] at hsolves
    simp only [Except.toOption, Option.map_some, List.map_nil, List.cons.injEq, Option.some.injEq,
      Prod.mk.injEq, and_true] at hsolves
    obtain ⟨⟨⟨hresult, htime⟩, hlabels⟩, ⟨_, htime'⟩, _⟩ := hsolves
    obtain ⟨rfl, hleft⟩ := hsame htime htime'
    refine ⟨_, t, t', hrun, hrun', hleft, hresult, hlabels,
      fun c hc hg href es hes e he hdef => ?_⟩
    exact hholds measured t ⟨1⟩ _ {} .still _ hwell hnumbers rfl hrun (by rw [hresult]; rfl) c hc hg
      href es hes e he (.inr hdef)
  · obtain ⟨report, t, report', t', hrun, hrun', hsame⟩ := hcheck true .still .still
    rw [List.map_cons, List.map_cons, hrun, hrun'] at hchecks
    simp only [Except.toOption, Option.map_some, List.map_nil, List.cons.injEq, Option.some.injEq,
      and_true] at hchecks
    obtain ⟨rfl, hleft⟩ := hsame hchecks.1 hchecks.2
    exact ⟨_, t, t', hrun, hrun', hleft⟩

end

end Sketch

end SketchSolver
